import Catena.World.Cell

/-!
# Views

What a value looks like from outside at one moment. Unlike a value, a view does not change when the
cells behind it do.
-/

namespace Catena

/-- A value with the state of its cell at the moment of looking. Results and contents are given by
their text. -/
inductive View where
  | nil
  | bool (b : Bool)
  | number (x : Float)
  | text (s : String)
  | word (name : Name)
  | symbol (name : Name)
  /-- A block's text, and the names it has captured, once it has. -/
  | block (shown : String) (captured : Option (List Name))
  | primitive (name : Name) (isAsync : Bool)
  | vocabulary (names : List Name)
  /-- An object by the names of its vocabulary. -/
  | object (names : List Name)
  | process (number : Nat) (state : ProcessState) (queued : Nat) (receiver : Bool) (notify : Nat)
      (result : Option String) (failure : Option Error)
  | mailbox (owner queued : Nat) (receiver : Bool)
  | dataflow (name : Name) (value : Option String) (waiters : Nat)

end Catena
