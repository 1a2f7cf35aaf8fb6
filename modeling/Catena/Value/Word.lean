import Catena.Error

/-!
# The built-in words

Built-in words fall into three groups by what they can touch: pure words see only the stack, state
words also change what lives outside it, and control words take over and resume their caller on a
later turn. Words of the first two groups are synchronous: they are done when they return.

`ForeignWord` and `ForeignControl` hold the words that an embedding program can add.
-/

namespace Catena

/-- Words that depend on the stack alone and change nothing else. -/
inductive PureWord where
  | dup | drop | swap | overTop | rot | nip | depth | clear
  | add | subtract | multiply | divide | modulo | negate | abs | sqrt | min | max
  | equal | notEqual | less | greater | lessEqual | greaterEqual
  | not | and | or
  | self
  deriving DecidableEq, Repr

namespace PureWord

/-- The spelling of a pure word. -/
def name : PureWord → Name
  | dup => "dup" | drop => "drop" | swap => "swap" | overTop => "over" | rot => "rot" | nip => "nip"
  | depth => "depth" | clear => "clear"
  | add => "+" | subtract => "-" | multiply => "*" | divide => "/" | modulo => "mod"
  | negate => "neg" | abs => "abs" | sqrt => "sqrt" | min => "min" | max => "max"
  | equal => "=" | notEqual => "!=" | less => "<" | greater => ">" | lessEqual => "<="
  | greaterEqual => ">="
  | not => "not" | and => "and" | or => "or"
  | self => "self"

/-- All pure words. -/
def all : List PureWord :=
  [dup, drop, swap, overTop, rot, nip, depth, clear, add, subtract, multiply, divide, modulo,
    negate, abs, sqrt, min, max, equal, notEqual, less, greater, lessEqual, greaterEqual, not, and,
    or, self]

end PureWord

/-- Synchronous words that read or change something besides the stack. -/
inductive StateWord where
  | define | defun | use | new | get | put
  | go | isDone | post | mailbox
  | dataflow | bind | isBound
  | print | render
  deriving DecidableEq, Repr

namespace StateWord

/-- The spelling of a state word. -/
def name : StateWord → Name
  | define => "def" | defun => "defun" | use => "use" | new => "new" | get => "get" | put => "put"
  | go => "go" | isDone => "done?" | post => "post" | mailbox => "mailbox"
  | dataflow => "dfvar" | bind => "bind" | isBound => "bound?"
  | print => "print" | render => "show"

/-- All state words. -/
def all : List StateWord :=
  [define, defun, use, new, get, put, go, isDone, post, mailbox, dataflow, bind, isBound, print,
    render]

end StateWord

/-- Words that pass control on and resume their caller on a later turn. -/
inductive ControlWord where
  | run | when | choose | iterate | vocab | send | await | receive | yield | after
  deriving DecidableEq, Repr

namespace ControlWord

/-- The spelling of a control word. -/
def name : ControlWord → Name
  | run => "do" | when => "if" | choose => "branch" | iterate => "times" | vocab => "vocab"
  | send => "send" | await => "await" | receive => "receive" | yield => "yield" | after => "after"

/-- All control words. -/
def all : List ControlWord :=
  [run, when, choose, iterate, vocab, send, await, receive, yield, after]

end ControlWord

/-- Synchronous words that an embedding program supplies. -/
inductive ForeignWord where
  /-- Pushes a number. -/
  | pushes (x : Float)
  /-- Refuses to work, for the reason given. -/
  | refuses (op reason : String)
  deriving DecidableEq

/-- Words of an embedding program that take their caller's continuation. -/
inductive ForeignControl where
  /-- Resumes its caller on the next turn. -/
  | pauses
  /-- Drops its caller. -/
  | swallows
  /-- Fails its caller on the next turn. -/
  | stalls
  deriving DecidableEq

end Catena
