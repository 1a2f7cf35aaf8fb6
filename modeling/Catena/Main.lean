import Catena.CommandLine.Plan

/-!
# The program

Reads the arguments, the variables and the files that they name, does what `CommandLine.plan` says
and writes the report that was asked for.
-/

namespace Catena.CommandLine

/-- A file as it is now, or why it cannot be read. -/
def readFileNow (path : String) : IO (Except FileError String) := do
  try
    return .ok (← IO.FS.readFile path)
  catch
    | .noFileOrDirectory .. => return .error .notFound
    | .inappropriateType _ 21 _ => return .error .isDirectory
    | .inappropriateType .. => return .error .notDirectory
    | .invalidArgument _ 36 _ => return .error .nameTooLong
    | .permissionDenied _ 13 _ => return .error (.other "Permission denied (os error 13)")
    | e => return .error (.other (toString e))

/-- The files that the arguments name, read beforehand. -/
def filesOf (args : List String) : IO (List (String × Except FileError String)) := do
  match parse args with
  | .command options request =>
    let named := options.config.toList ++ (match request with
      | .runFile path => [path]
      | _ => [])
    named.mapM fun path => do return (path, ← readFileNow path)
  | _ => return []

/-- What the system around is like at the start. -/
def surroundingsNow (args : List String) : IO Surroundings := do
  let files ← filesOf args
  let names := ["SLANG_STRICT_WORDS", "SLANG_MAX_TURNS", "SLANG_REPORT", "TERM"]
  let found ← names.mapM fun name => do return (name, ← IO.getEnv name)
  return {
    lookupVariable := fun name => (found.lookup name).join
    contentOf := fun path => (files.lookup path).getD (.error .notFound)
    isInput := (· == "/dev/stdin") }

/-- Waits and writes an output. -/
def Output.emit (output : Output) : IO Unit := do
  IO.sleep (min (output.waited / 1000000) (UInt32.size - 1)).toUInt32
  let out ← IO.getStdout
  out.putStr output.out
  out.flush
  (← IO.getStderr).putStr output.err

/-- Holds a session with standard input. -/
partial def converse (prompt : String) (session : Session) : IO Session := do
  ({ out := prompt } : Output).emit
  let line ← (← IO.getStdin).getLine
  if line.isEmpty then return session
  match Repl.step session line with
  | none => return session
  | some (session, output) =>
    output.emit
    converse prompt session

/-- Writes a report to its file, or to standard error. -/
def emitReport (request : Report.Request) (wallClockMs : Nat) (stats : Stats) : IO Unit := do
  let text := request.render wallClockMs stats
  match request.file with
  | none => (← IO.getStderr).putStr text
  | some path =>
    try IO.FS.writeFile path text
    catch _ => (← IO.getStderr).putStr text

end Catena.CommandLine

open Catena Catena.CommandLine in
/-- The command line program. -/
def main (args : List String) : IO UInt32 := do
  let begun ← IO.monoMsNow
  let around ← surroundingsNow args
  let ending ← match plan around args with
    | .finish output ending => do
      output.emit
      pure ending
    | .converse session _ => do
      (Output.outLine Repl.banner).emit
      let session ← converse (Repl.promptOn (around.lookupVariable "TERM")) session
      pure { code := 0, stats := some session.world.stats }
  match reportRequest? around, ending.stats with
  | some request, some stats => emitReport request ((← IO.monoMsNow) - begun) stats
  | _, _ => pure ()
  return ending.code.toUInt32
