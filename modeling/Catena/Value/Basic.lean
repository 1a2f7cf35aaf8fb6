import Catena.Program.Datum
import Catena.Value.Word

/-!
# Values

What programs compute with: the data that programs are written in, and references to what lives
outside the stack. Numbers, texts and names are equal when their contents are; blocks, words and
references are equal when they are the same one (`Value.same`).
-/

namespace Catena

/-- The identity of a block literal. -/
structure BlockId where
  index : Nat
  deriving DecidableEq, Inhabited

/-- The number of a vocabulary. -/
structure VocabularyId where
  index : Nat
  deriving DecidableEq, Inhabited

/-- The number of an object. -/
structure ObjectId where
  index : Nat
  deriving DecidableEq, Inhabited

/-- The place of a process among all processes. -/
structure ProcessId where
  index : Nat
  deriving DecidableEq, Inhabited

/-- The number by which a process is shown; the first process is number one. -/
def ProcessId.number (p : ProcessId) : Nat := p.index + 1

/-- The number of a mailbox. -/
structure MailboxId where
  index : Nat
  deriving DecidableEq, Inhabited

/-- The number of a dataflow variable. -/
structure VariableId where
  index : Nat
  deriving DecidableEq, Inhabited

/-- A loaded program: every block literal has its identity. -/
abbrev Code := List (Datum BlockId)

/-- A block literal of a loaded program. -/
structure Block where
  id : BlockId
  code : Code

/-- What calling a word does. -/
inductive Behaviour where
  | pure (word : PureWord)
  | state (word : StateWord)
  | control (word : ControlWord)
  /-- Runs a block that `defun` gave a name. -/
  | defined (block : Block)
  | foreign (word : ForeignWord)
  | foreignControl (word : ForeignControl)

/-- Whether a word takes its caller's continuation. -/
def Behaviour.isAsync : Behaviour → Bool
  | pure _ | state _ | foreign _ => false
  | control _ | defined _ | foreignControl _ => true

/-- A word that can be called: its identity, the name it shows and what it does. -/
structure Primitive where
  serial : Nat
  name : Name
  behaviour : Behaviour

/-- A value of the language. -/
inductive Value where
  | datum (d : Datum BlockId)
  | primitive (p : Primitive)
  | vocabulary (v : VocabularyId)
  | object (o : ObjectId)
  | process (p : ProcessId)
  | mailbox (m : MailboxId)
  | dataflow (v : VariableId)

/-- Whether two data are equal as values. -/
def Datum.same : Datum BlockId → Datum BlockId → Bool
  | nil, nil => true
  | bool a, bool b => a == b
  | number x, number y => x == y
  | text s, text t => s == t
  | word m, word n => m == n
  | symbol m, symbol n => m == n
  | block a _, block b _ => a == b
  | _, _ => false

namespace Value

/-- The absent value. -/
@[match_pattern] abbrev nil : Value := .datum .nil

/-- A truth value. -/
@[match_pattern] abbrev bool (b : Bool) : Value := .datum (.bool b)

/-- A number. -/
@[match_pattern] abbrev number (x : Float) : Value := .datum (.number x)

/-- A text. -/
@[match_pattern] abbrev text (s : String) : Value := .datum (.text s)

/-- A symbol. -/
@[match_pattern] abbrev symbol (name : Name) : Value := .datum (.symbol name)

/-- A block. -/
@[match_pattern] abbrev block (id : BlockId) (code : Code) : Value := .datum (.block id code)

instance : Inhabited Value := ⟨nil⟩

/-- The kind of a value. -/
def kind : Value → Kind
  | datum d => d.kind
  | primitive _ => .primitive
  | vocabulary _ => .vocabulary
  | object _ => .object
  | process _ => .process
  | mailbox _ => .mailbox
  | dataflow _ => .dataflow

/-- Whether a value counts as true. -/
def truthy : Value → Bool
  | datum d => d.truthy
  | _ => true

/-- Whether two values are equal. -/
def same : Value → Value → Bool
  | datum a, datum b => a.same b
  | primitive p, primitive q => p.serial == q.serial
  | vocabulary v, vocabulary w => v == w
  | object o, object p => o == p
  | process p, process q => p == q
  | mailbox m, mailbox n => m == n
  | dataflow v, dataflow w => v == w
  | _, _ => false

end Value

end Catena
