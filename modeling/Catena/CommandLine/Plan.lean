import Catena.CommandLine.Arguments
import Catena.CommandLine.Files
import Catena.CommandLine.Repl
import Catena.Report
import Catena.Settings.File

/-!
# The command line

What the program does with its arguments, given the variables and files around it. All of it is
decided here; carrying it out is left to the caller.
-/

namespace Catena.CommandLine

/-- What the program can see of the system around it. -/
structure Surroundings where
  lookupVariable : String → Option String
  contentOf : String → Except FileError String
  /-- Whether a path leads to standard input, which can be read only once. -/
  isInput : String → Bool

/-- What is left once standard input has been read. -/
def Surroundings.drained (around : Surroundings) : Surroundings :=
  { around with
    contentOf := fun path => if around.isInput path then .ok "" else around.contentOf path }

/-- Whether the settings are read from standard input. -/
def Options.drainsInput (around : Surroundings) (options : Options) : Bool :=
  options.config.any around.isInput

/-- The settings by all their sources: variables, then the file, then the options. -/
def settings (around : Surroundings) (options : Options) : Except String Settings := do
  let base := ({} : Settings).withVariables around.lookupVariable
  let filed ← match options.config with
    | none => pure base
    | some path =>
      match around.contentOf path with
      | .error e => throw ("could not read " ++ path ++ ": " ++ e.message)
      | .ok text =>
        match SettingsFile.parse? text with
        | some file => pure (file.overlay base)
        | none => throw (path ++ ": invalid config:")
  return { strictWords := options.strict || filed.strictWords
           maxTurns := options.maxTurns.or filed.maxTurns }

/-- How the program ends: its exit code, and the counters for a report, if it got as far as one. -/
structure Ending where
  code : Nat
  stats : Option Stats := none

/-- What the program is going to do. -/
inductive Plan where
  /-- Writes something and ends. -/
  | finish (output : Output) (ending : Ending)
  /-- Holds an interactive session; the flag says whether there is anything left to read. -/
  | converse (session : Session) (hasInput : Bool)

/-- Evaluates a program and shows its final stack, unless that is empty. -/
def evalSource (s : Session) (source : String) : Output × Ending :=
  let (s, e) := s.eval source
  let (shown, code) : Output × Nat := match e.outcome with
    | .ok stack =>
      (if stack.items.isEmpty then {} else .outLine (s.world.displayStack stack), 0)
    | .error failure => (.errLine ("Error: " ++ failure.message), 1)
  (.ofEvaluation e ++ shown, { code, stats := some s.world.stats })

/-- Deals with a request under the settings that hold. -/
def planRequest (around : Surroundings) (settings : Settings) (hasInput : Bool) : Request → Plan
  | .completions _ => .finish {} { code := 0 }
  | .repl => .converse (.new settings) hasInput
  | .evalText code =>
    let (output, ending) := evalSource (.new settings) code
    .finish output ending
  | .runFile path =>
    match around.contentOf path with
    | .ok source =>
      let (output, ending) := evalSource (.new settings) source
      .finish output ending
    | .error e =>
      .finish (.errLine ("Error reading " ++ path ++ ": " ++ e.message))
        { code := 1, stats := some {} }

/-- Deals with the arguments. -/
def plan (around : Surroundings) (args : List String) : Plan :=
  match parse args with
  | .usage => .finish (.errLine "usage") { code := 2 }
  | .version => .finish (.outLine "slang 0.4.0") { code := 0 }
  | .command _ (.completions _) => .finish {} { code := 0 }
  | .command options request =>
    match settings around options with
    | .ok settings =>
      if options.drainsInput around then planRequest around.drained settings false request
      else planRequest around settings true request
    | .error problem => .finish (.errLine ("Error: " ++ problem)) { code := 1 }

/-- The lines of a text; a line feed at the very end begins no further line. -/
def inputLines (text : String) : List String :=
  let lines := text.splitOn "\n"
  if lines.getLast? = some "" then lines.dropLast else lines

/-- The report that the system asks for. -/
def reportRequest? (around : Surroundings) : Option Report.Request :=
  (around.lookupVariable "SLANG_REPORT").bind Report.Request.parse?

/-- Everything the program writes to its two streams, when its input is known beforehand. -/
def execute (around : Surroundings) (args : List String) (input : String) : Output × Ending :=
  match plan around args with
  | .finish output ending => (output, ending)
  | .converse session hasInput =>
    let lines := if hasInput then inputLines input else []
    let (session, output) := Repl.run (Repl.promptOn (around.lookupVariable "TERM")) session lines
    (.outLine Repl.banner ++ output, { code := 0, stats := some session.world.stats })

/-- Everything that a run leaves behind. -/
structure Trace where
  output : Output
  code : Nat
  files : FileTree

/-- Runs the program among known files and variables. The report comes last; where it cannot be
written to its file, it goes to standard error. -/
def trace (files : FileTree) (lookupVariable : String → Option String) (args : List String)
    (input : String) (wallClockMs : Nat) : Trace :=
  let around : Surroundings :=
    { lookupVariable, contentOf := files.read, isInput := files.isInput }
  let (output, ending) := execute around args input
  match reportRequest? around, ending.stats with
  | some request, some stats =>
    let text := request.render wallClockMs stats
    match request.file.bind (files.write? · text) with
    | some files => { output, code := ending.code, files }
    | none => { output := { output with err := output.err ++ text }, code := ending.code, files }
  | _, _ => { output, code := ending.code, files }

end Catena.CommandLine
