import Catena.Text.Escaped
import Catena.World.Display

/-!
# Dumps

The structure of a value, a stack or an environment with the names of its parts, for those who look
into a running system.
-/

namespace Catena

namespace Dump

/-- A named structure with named parts. -/
def record (name : String) (parts : List (String × String)) : String :=
  name ++ " \x7b " ++ ", ".intercalate (parts.map fun part => part.1 ++ ": " ++ part.2) ++ " \x7d"

/-- A value wrapped in a name. -/
def wrapped (name : String) (content : String) : String := name ++ "(" ++ content ++ ")"

/-- A sequence. -/
def sequence (items : List String) : String := "[" ++ ", ".intercalate items ++ "]"

/-- A truth value. -/
def bool (b : Bool) : String := if b then "true" else "false"

/-- A list of names. -/
def names (ns : List Name) : String := sequence (ns.map Text.Escaped.inspect)

/-- The life of a process. -/
def state : ProcessState → String
  | .waiting => "Waiting"
  | .running => "Running"
  | .done => "Done"

end Dump

namespace World

open Dump

/-- The structure of a datum. -/
def inspectDatum (w : World) : Datum BlockId → String
  | .nil => "Nil"
  | .bool b => wrapped "Bool" (bool b)
  | .number x => wrapped "Number" (Number.inspect x)
  | .text s => wrapped "Str" (Text.Escaped.inspect s)
  | .word name => wrapped "Word" (Text.Escaped.inspect name)
  | .symbol name => wrapped "Symbol" (Text.Escaped.inspect name)
  | .block id body => wrapped "Block" (record "Block"
      [("len", toString body.length), ("instantiated", bool (w.captured? id).isSome)])

/-- The structure of a vocabulary. -/
def inspectVocabulary (w : World) (v : VocabularyId) : String :=
  record "Vocab" [("names", names (w.vocabulary v).names)]

/-- The structure of a value. -/
def inspect (w : World) : Value → String
  | .datum d => w.inspectDatum d
  | .primitive p => wrapped "Primitive" (record "Primitive"
      [("name", Text.Escaped.inspect p.name), ("async", bool p.behaviour.isAsync)])
  | .vocabulary v => wrapped "Vocab" (w.inspectVocabulary v)
  | .object o =>
    let object := w.object o
    wrapped "Object" (record "Object"
      [("props", names object.properties.names),
        ("vocab", w.inspectVocabulary object.vocabulary)])
  | .process p =>
    let process := w.process p
    wrapped "Process" (record "Process"
      [("id", toString p.number), ("state", state process.state),
        ("mailbox", toString (w.mailbox process.mailbox).queue.length)])
  | .mailbox m =>
    let mailbox := w.mailbox m
    wrapped "Mailbox" (record "Mailbox"
      [("owner", toString mailbox.owner), ("queued", toString mailbox.queue.length),
        ("receiver", bool mailbox.receiver.isSome)])
  | .dataflow v =>
    let cell := w.dataflow v
    wrapped "Dataflow" (record "DataflowVar"
      [("name", Text.Escaped.inspect cell.name), ("bound", bool cell.value.isSome),
        ("waiters", toString cell.waiters.length)])

/-- The structure of a stack. -/
def inspectStack (w : World) (s : Stack) : String :=
  let owner := match s.owner with
    | some p => wrapped "Some" (toString p.number)
    | none => "None"
  record "Stack" [("items", sequence (s.values.map w.inspect)), ("owner", owner)]

/-- The structure of an environment. -/
def inspectEnv (w : World) (env : EnvId) : String :=
  record "Env"
    [("depth", toString (w.forest.depth env)),
      ("innermost", toString (w.forest.innermost env).size)]

end World

end Catena
