import Catena.Proofs.Machine.Effect

/-!
# Programs in one go

The machine runs a program in turns: each block body begins on a turn of its own, and what comes
after it is kept as a continuation. A program that never has to wait can also be run by plain
recursion, and this module does so. `Direct.code` goes through the items of a program as
`World.run` does; a word that runs a block runs it there and then, in a fresh environment, and goes
on with the stack that the block leaves. A failure ends everything.

The recursion goes down by one with each block that is entered, so that a program gives no answer
if its blocks are nested deeper than it is allowed to go. Nor does one that spawns a process or
waits for something.
-/

namespace Catena.Direct

/-- The world and the outcome that something comes to, if it comes to an end. -/
abbrev Result := Option (World × Outcome)

/-- A way to run a block: in the environment that it is called in, with the word that it belongs to
and with what becomes of its scope. -/
abbrev Runner := EnvId → Block → Option (Name × Value) → Exit → World → Stack → Result

/-- Goes on with the stack that something has come to; a failure stays as it is. -/
def andThen (result : Result) (next : World → Stack → Result) : Result :=
  match result with
  | some (w, .ok s) => next w s
  | result => result

/-- What has come to an end has come to a stack to go on with, or has failed. -/
theorem andThen_eq_some {result : Result} {next : World → Stack → Result} {u : World}
    {outcome : Outcome} (h : andThen result next = some (u, outcome)) :
    (∃ v t, result = some (v, .ok t) ∧ next v t = some (u, outcome)) ∨
      ∃ e, result = some (u, .error e) ∧ outcome = .error e := by
  rcases result with _ | ⟨v, _ | t⟩
  · cases h
  · cases h
    exact .inr ⟨_, rfl, rfl⟩
  · exact .inl ⟨v, t, rfl, h⟩

/-- Goes on with the operands of a word, or fails. -/
def withOperands {α : Type} (w : World) (operands : Except Error α) (next : α → Result) : Result :=
  match operands with
  | .ok a => next a
  | .error e => some (w, .error e)

/-- Does something so many times, each time on the stack that the last time left. -/
def repeated (once : World → Stack → Result) : Nat → World → Stack → Result
  | 0, w, s => some (w, .ok s)
  | n + 1, w, s => andThen (once w s) (repeated once n)

section Words

open ControlWord

variable (run : Runner)

/-- Every control word but `send`. Those that may have to wait give no answer. -/
def plain (word : ControlWord) (env : EnvId) (w : World) (s : Stack) : Result :=
  let op := word.name
  match word with
  | .run => withOperands w (blockOperand op s) fun (block, rest) => run env block none .leave w rest
  | .when => withOperands w (whenOperands op s) fun (condition, block, rest) =>
    if condition then run env block none .leave w rest else some (w, .ok rest)
  | .choose => withOperands w (chooseOperands op s) fun (block, rest) =>
    run env block none .leave w rest
  | .iterate => withOperands w (iterateOperands op s) fun (block, n, rest) =>
    repeated (run env block none .leave) n w rest
  | .vocab => withOperands w (blockOperand op s) fun (block, rest) =>
    run env block none .harvest w rest
  | .yield => some (w, .ok s)
  | .send => some (w, .error (.typeMismatch op .symbol .object))
  | .await | .receive | .after => none

/-- Calls a word, when `send` is what is given for it. -/
def callWith (send : EnvId → World → Stack → Result) (p : Primitive) (env : EnvId) (w : World)
    (s : Stack) : Result :=
  match p.behaviour with
  | .pure word => some (w, word.apply s)
  | .foreign word => some (w, word.apply s)
  | .state .go => none
  | .state word =>
    let (outcome, w) := (word.apply env s).run w
    some (w, outcome)
  | .control .send => send env w s
  | .control word => plain run word env w s
  | .defined block => run env block (some (p.name, .primitive p)) .leave w s
  | .foreignControl _ => none

/-- Sends a message. -/
def send (env : EnvId) (w : World) (s : Stack) : Result :=
  withOperands w (sendOperands ControlWord.send.name s) fun (o, message, rest) =>
    match w.answer? o message with
    | none => some (w.report ("send: object does not understand `" ++ message ++ "`"), .ok s)
    | some (.block id code) => run env ⟨id, code⟩ none .leave w (rest.push (.object o))
    | some (.primitive p) => callWith run (plain run .send) p env w (rest.push (.object o))
    | some v => some (w, .ok (rest.push v))

/-- Calls a word. -/
def call (p : Primitive) (env : EnvId) (w : World) (s : Stack) : Result :=
  callWith run (send run) p env w s

/-- Goes through the items of a program. -/
def code (env : EnvId) : Code → World → Stack → Result
  | [], w, s => some (w, .ok s)
  | d :: rest, w, s =>
    match w.decode env d with
    | (w, .error e) => some (w, .error e)
    | (w, .ok (.push v)) => code env rest w (s.push v)
    | (w, .ok (.call p)) => andThen (call run p env w s) (code env rest)

end Words

/-- Runs a block in a fresh environment: its snapshot, the word it belongs to and an empty scope on
top, which is left at the end. Blocks may be nested `depth` deep. -/
def block (depth : Nat) : Runner := fun env b own exit w s =>
  match depth with
  | 0 => none
  | depth + 1 =>
    let (w, captured) := w.instantiate env b
    let (w, inner, guard) := w.openActivation captured own
    (code (block depth) inner b.code w s).map fun (w, outcome) => w.exitScope exit guard outcome

/-- What comes of a block is what comes of its body, once the scope is left. -/
theorem block_succ_eq_some {depth : Nat} {env : EnvId} {b : Block} {own : Option (Name × Value)}
    {exit : Exit} {w u : World} {s : Stack} {outcome : Outcome}
    (h : block (depth + 1) env b own exit w s = some (u, outcome)) :
    let opened := (w.instantiate env b).1.openActivation (w.instantiate env b).2 own
    ∃ v result, code (block depth) opened.2.1 b.code opened.1 s = some (v, result) ∧
      v.exitScope exit opened.2.2 result = (u, outcome) := by
  obtain ⟨⟨v, result⟩, hbody, hexit⟩ := Option.map_eq_some_iff.1 h
  exact ⟨v, result, hbody, hexit⟩

/-- Evaluates a program on a stack. -/
def evaluate (depth : Nat) (i : Interpreter) (program : Program) (stack : Stack) (w : World) :
    Result :=
  code (block depth) i.env (w.load program).2 (w.launch i.settings.strictWords program) stack

end Catena.Direct
