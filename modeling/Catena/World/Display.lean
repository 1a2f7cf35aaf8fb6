import Catena.World.Basic

/-!
# Showing values

`World.display` is the text of a value. Literals print in the notation of the reader, all else as a
placeholder in angle brackets. `World.view` looks at a value together with the state of its cell.
-/

namespace Catena.World

/-- The text of a value, following bound variables at most `fuel` deep. -/
def displayWithin (w : World) : Nat → Value → String
  | _, .datum d => d.display
  | _, .primitive p => "<primitive " ++ p.name ++ ">"
  | _, .vocabulary v => "<vocabulary " ++ toString (w.vocabulary v).size ++ ">"
  | _, .object o => "<object " ++ toString (w.vocabulary (w.object o).vocabulary).size ++ ">"
  | _, .process p => "<process " ++ toString p.number ++ ">"
  | _, .mailbox m => "<mailbox " ++ toString (w.mailbox m).queue.length ++ ">"
  | 0, .dataflow v => "<dfvar " ++ (w.dataflow v).name ++ ">"
  | fuel + 1, .dataflow v =>
    match (w.dataflow v).value with
    | some value => "<dfvar " ++ (w.dataflow v).name ++ " = " ++ w.displayWithin fuel value ++ ">"
    | none => "<dfvar " ++ (w.dataflow v).name ++ ">"

/-- The text of a value. A chain of variables without a cycle is no longer than there are
variables. -/
def display (w : World) (v : Value) : String := w.displayWithin w.dataflows.size v

/-- The text of several values, one space between two. -/
def displayAll (w : World) (values : List Value) : String :=
  " ".intercalate (values.map w.display)

/-- The text of a stack, bottom to top. -/
def displayStack (w : World) (s : Stack) : String := w.displayAll s.values

/-- A datum as it looks now. -/
def viewDatum (w : World) : Datum BlockId → View
  | .nil => .nil
  | .bool b => .bool b
  | .number x => .number x
  | .text s => .text s
  | .word name => .word name
  | .symbol name => .symbol name
  | .block id body =>
    .block (Datum.block id body).display ((w.captured? id).map Bindings.names)

/-- A value as it looks now. -/
def view (w : World) : Value → View
  | .datum d => w.viewDatum d
  | .primitive p => .primitive p.name p.behaviour.isAsync
  | .vocabulary v => .vocabulary (w.vocabulary v).names
  | .object o => .object (w.vocabulary (w.object o).vocabulary).names
  | .process p =>
    let process := w.process p
    let mailbox := w.mailbox process.mailbox
    .process p.number process.state mailbox.queue.length mailbox.receiver.isSome
      process.notify.length (process.result.map w.display) process.failure
  | .mailbox m =>
    let mailbox := w.mailbox m
    .mailbox mailbox.owner mailbox.queue.length mailbox.receiver.isSome
  | .dataflow v =>
    let cell := w.dataflow v
    .dataflow cell.name (cell.value.map w.display) cell.waiters.length

/-- The values of a stack as they look now, bottom to top. -/
def viewStack (w : World) (s : Stack) : List View := s.values.map w.view

end Catena.World
