import Catena.Number.Text

/-!
# Kinds of values and causes of failure

A failure is recorded as its cause; `Error.message` gives each cause its wording.
-/

namespace Catena

/-- The name of a word, symbol or binding. -/
abbrev Name := String

/-- The kinds of values, as failures name them. -/
inductive Kind where
  | nil | number | string | word | symbol | bool | block | primitive | vocabulary | object
  | process | mailbox | dataflow
  deriving DecidableEq, Repr

/-- How a kind is called in messages. -/
def Kind.name : Kind → String
  | nil => "nil"
  | number => "number"
  | string => "string"
  | word => "word"
  | symbol => "symbol"
  | bool => "bool"
  | block => "block"
  | primitive => "primitive"
  | vocabulary => "vocabulary"
  | object => "object"
  | process => "process"
  | mailbox => "mailbox"
  | dataflow => "dfvar"

/-- A place in a source text, counted from zero. -/
structure Position where
  line : Nat
  column : Nat
  deriving DecidableEq, Repr

/-- The start of a text. -/
def Position.start : Position := ⟨0, 0⟩

/-- The place after `c` has been read: a line feed starts a line, anything else takes a column. -/
def Position.advance (p : Position) (c : Char) : Position :=
  if c = '\n' then ⟨p.line + 1, 0⟩ else ⟨p.line, p.column + 1⟩

/-- What is wrong with the shape of a source text. -/
inductive ReadFault where
  /-- A string that no quote closes. -/
  | unclosedString
  /-- A closing bracket that matches no opening one. -/
  | unbalancedClose
  /-- An opening bracket that nothing closes. -/
  | unclosedBlock
  deriving DecidableEq, Repr

/-- The wording of a fault. -/
def ReadFault.message : ReadFault → String
  | unclosedString => "unclosed string literal"
  | unbalancedClose => "unbalanced ']'"
  | unclosedBlock => "unclosed '['"

/-- Why an operand of the right kind is refused. -/
inductive Refusal where
  | divisionByZero
  | negativeOperand (x : Float)
  | badCount (x : Float)
  | badDelay (ms : Float)
  /-- A delay that is no span of time the clock knows. -/
  | delayTooLong (ms : Float)
  /-- A span of time whose end the clock cannot reach. -/
  | deadlineTooFar (seconds : Nat)
  /-- A reason given by the embedding program. -/
  | stated (reason : String)
  deriving DecidableEq

/-- The wording of a refusal. -/
def Refusal.message : Refusal → String
  | divisionByZero => "division by zero"
  | negativeOperand x => "negative operand " ++ Number.positional x
  | badCount x => "count must be a non-negative integer, got " ++ Number.positional x
  | badDelay ms => "delay must be >= 0 ms, got " ++ Number.positional ms
  | delayTooLong ms => "delay of " ++ Number.positional ms ++ " ms is out of range"
  | deadlineTooFar seconds => "delay of " ++ toString seconds ++ "s is out of range"
  | stated reason => reason

/-- Why a word, a program or an evaluation failed. -/
inductive Error where
  /-- The operand of `op` is of another kind than it wants. -/
  | typeMismatch (op : String) (expected actual : Kind)
  /-- The stack holds fewer values than `op` needs. -/
  | stackUnderflow (op : String) (needed depth : Nat)
  /-- Under strict resolution: a word that nothing binds. -/
  | unresolvedWord (name : Name)
  /-- `op` only works on a stack that a process owns. -/
  | noOwningProcess (op : String)
  /-- A second `receive` on the mailbox of this process. -/
  | receiverPending (process : Nat)
  /-- The text is no program. -/
  | parse (position : Position) (fault : ReadFault)
  /-- An operand of `op` is of the right kind and still of no use. -/
  | invalidArgument (op : String) (reason : Refusal)
  /-- The evaluation waits for something that nothing will bring about. -/
  | stalled
  /-- The evaluation did not end within its turns. -/
  | turnLimit (turns : Nat)
  deriving DecidableEq

/-- The wording of a failure; lines and columns are counted from one. -/
def Error.message : Error → String
  | typeMismatch op expected actual =>
    op ++ ": expected " ++ expected.name ++ ", got " ++ actual.name
  | stackUnderflow op needed depth =>
    op ++ ": stack underflow (needs " ++ toString needed ++ ", has " ++ toString depth ++ ")"
  | unresolvedWord name => "unresolved word `" ++ name ++ "`"
  | noOwningProcess op => op ++ ": not running inside a process"
  | receiverPending process =>
    "receive: process " ++ toString process ++ " already has a pending receiver"
  | parse position fault =>
    "parse error at line " ++ toString (position.line + 1) ++ ", column "
      ++ toString (position.column + 1) ++ ": " ++ fault.message
  | invalidArgument op reason => op ++ ": " ++ reason.message
  | stalled => "evaluation suspended with no runnable work left"
  | turnLimit turns => "scheduler turn limit of " ++ toString turns ++ " exceeded"

end Catena
