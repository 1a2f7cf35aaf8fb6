import Catena.Settings.Basic

/-!
# Arguments

The arguments of the command line: one of the commands `run FILE`, `eval CODE`, `repl` and
`completions SHELL`, and options before or after its name. An option may be given once before the
command and once after it; the later one counts.
-/

namespace Catena.CommandLine

/-- The options of every command. -/
structure Options where
  config : Option String := none
  strict : Bool := false
  maxTurns : Option Nat := none

/-- What the program is to do. -/
inductive Request where
  | runFile (path : String)
  | evalText (code : String)
  | repl
  | completions (shell : String)

/-- What the arguments amount to. -/
inductive Parsed where
  /-- The program is to show its version. -/
  | version
  | command (options : Options) (request : Request)
  /-- They make no sense. -/
  | usage

/-- The shells that completions are made for. -/
def shells : List String := ["bash", "elvish", "fish", "powershell", "zsh"]

namespace Options

/-- Sets the settings file, once. -/
def setConfig? (o : Options) (path : String) : Option Options :=
  if o.config.isSome || path.isEmpty then none else some { o with config := some path }

/-- Asks for strict resolution, once. -/
def setStrict? (o : Options) : Option Options :=
  if o.strict then none else some { o with strict := true }

/-- Sets the limit on turns, once; it is at least one. -/
def setMaxTurns? (o : Options) (text : String) : Option Options :=
  if o.maxTurns.isSome then none
  else match Settings.parseLimit? text with
    | some (n + 1) => some { o with maxTurns := some (n + 1) }
    | _ => none

/-- The options given before a command, with those given after it on top. -/
def overriddenBy (before after : Options) : Options :=
  { config := after.config.or before.config
    strict := after.strict || before.strict
    maxTurns := after.maxTurns.or before.maxTurns }

end Options

/-- What one argument is. -/
inductive Argument where
  /-- An option by its name, with the value that follows an equals sign. -/
  | long (name : String) (value : Option String)
  /-- Short flags. -/
  | short (flags : List Char)
  /-- The mark after which nothing is an option. -/
  | mark
  | plain (text : String)

/-- Tells options from other arguments. A lone dash is not an option. -/
def Argument.ofText (text : String) : Argument :=
  match text.toList with
  | ['-', '-'] => .mark
  | '-' :: '-' :: cs =>
    let name := String.ofList (cs.takeWhile (· ≠ '='))
    match cs.dropWhile (· ≠ '=') with
    | [] => .long name none
    | _ :: value => .long name (some (String.ofList value))
  | '-' :: c :: cs => .short (c :: cs)
  | _ => .plain text

/-- How reading options ended: at the end or a plain argument, by asking for the version, or in
nonsense. -/
inductive Scan where
  | options (o : Options) (plain : List String)
  | version
  | nonsense

/-- Reads arguments, with `o` and `plain` what has been read so far, the last one first. With
`nested`, they follow the name of a command: all plain arguments are collected, and nothing asks
for the version. Otherwise the first plain argument ends the reading. -/
def scan (nested : Bool) (o : Options) (plain : List String) : List String → Scan
  | [] => .options o plain.reverse
  | arg :: rest =>
    match Argument.ofText arg with
    | .plain text =>
      if nested then scan nested o (text :: plain) rest else .options o (text :: rest)
    | .mark => if nested then .options o (plain.reverse ++ rest) else .nonsense
    | .short flags => if !nested && flags.head? = some 'V' then .version else .nonsense
    | .long "version" none => if nested then .nonsense else .version
    | .long "strict" none =>
      match o.setStrict? with
      | some o => scan nested o plain rest
      | none => .nonsense
    | .long "config" (some path) => withOption nested plain rest (o.setConfig? path)
    | .long "max-turns" (some limit) => withOption nested plain rest (o.setMaxTurns? limit)
    | .long "config" none =>
      match rest with
      | value :: rest =>
        match Argument.ofText value, o.setConfig? value with
        | .plain _, some o => scan nested o plain rest
        | _, _ => .nonsense
      | [] => .nonsense
    | .long "max-turns" none =>
      match rest with
      | value :: rest =>
        match Argument.ofText value, o.setMaxTurns? value with
        | .plain _, some o => scan nested o plain rest
        | _, _ => .nonsense
      | [] => .nonsense
    | .long _ _ => .nonsense
where
  /-- Goes on with the options, if setting one succeeded. -/
  withOption (nested : Bool) (plain rest : List String) : Option Options → Scan
    | some o => scan nested o plain rest
    | none => .nonsense

/-- The command of a name with its plain arguments. -/
def request? (name : String) (plain : List String) : Option Request :=
  match name, plain with
  | "run", [path] => if path.isEmpty then none else some (.runFile path)
  | "eval", [code] => some (.evalText code)
  | "repl", [] => some .repl
  | "completions", [shell] => if shells.contains shell then some (.completions shell) else none
  | _, _ => none

/-- What the arguments ask for. -/
def parse (args : List String) : Parsed :=
  match scan false {} [] args with
  | .version => .version
  | .nonsense | .options _ [] => .usage
  | .options before (name :: rest) =>
    match scan true {} [] rest with
    | .options after plain =>
      match request? name plain with
      | some request => .command (before.overriddenBy after) request
      | none => .usage
    | _ => .usage

end Catena.CommandLine
