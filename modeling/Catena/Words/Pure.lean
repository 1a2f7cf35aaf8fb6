import Catena.Number.Binary
import Catena.Value.Stack

/-!
# Words on the stack alone

Shuffling, arithmetic, comparison and logic. A word looks at its operands from the top down and
fails at the first that is missing or of the wrong kind.
-/

namespace Catena

namespace Stack

/-- Takes the two top values off; the lower one comes first. -/
def takeTwo (s : Stack) (op : String) : Except Error (Value × Value × Stack) :=
  match s.items with
  | b :: a :: rest => .ok (a, b, { s with items := rest })
  | _ => .error (.stackUnderflow op 2 s.depth)

/-- Takes the three top values off; the lowest one comes first. -/
def takeThree (s : Stack) (op : String) : Except Error (Value × Value × Value × Stack) :=
  match s.items with
  | c :: b :: a :: rest => .ok (a, b, c, { s with items := rest })
  | _ => .error (.stackUnderflow op 3 s.depth)

/-- Replaces the number on top by the result of `f`. -/
def mapNumber (s : Stack) (op : String) (f : Float → Except Error Value) : Except Error Stack := do
  let a ← s.peekNumber op 0
  let result ← f a
  return (← s.dropTop op 1).push result

/-- Replaces the two numbers on top by the result of `f`, the lower one first. -/
def mapNumbers (s : Stack) (op : String) (f : Float → Float → Except Error Value) :
    Except Error Stack := do
  let b ← s.peekNumber op 0
  let a ← s.peekNumber op 1
  let result ← f a b
  return (← s.dropTop op 2).push result

/-- Replaces the two values on top by the truth of `f`, the lower one first. -/
def compareTop (s : Stack) (op : String) (f : Value → Value → Bool) : Except Error Stack := do
  let (a, b, rest) ← s.takeTwo op
  return rest.push (.bool (f a b))

end Stack

namespace Number

/-- The remainder of `a` by `b`, with the sign of `b`. -/
def modulo (a b : Float) : Float := a - b * floor (a / b)

/-- The smaller number; an undefined one counts as missing. -/
def smaller (a b : Float) : Float :=
  if a.isNaN then b else if b.isNaN then a else if b < a then b else a

/-- The larger number; an undefined one counts as missing. -/
def larger (a b : Float) : Float :=
  if a.isNaN then b else if b.isNaN then a else if a < b then b else a

end Number

namespace PureWord

/-- `f a b`, refused for `b` zero. -/
def unlessZero (op : String) (f : Float → Float → Float) (a b : Float) : Except Error Value :=
  if b == 0 then .error (.invalidArgument op .divisionByZero) else .ok (.number (f a b))

/-- The square root, refused below zero. -/
def squareRoot (op : String) (a : Float) : Except Error Value :=
  if a < 0 then .error (.invalidArgument op (.negativeOperand a)) else .ok (.number a.sqrt)

/-- What a pure word makes of the stack. -/
def apply (word : PureWord) (s : Stack) : Except Error Stack :=
  let op := word.name
  match word with
  | dup => do return s.push (← s.peek op 0)
  | drop => s.dropTop op 1
  | swap => do
    let (a, b, rest) ← s.takeTwo op
    return (rest.push b).push a
  | overTop => do return s.push (← s.peek op 1)
  | rot => do
    let (a, b, c, rest) ← s.takeThree op
    return ((rest.push b).push c).push a
  | nip => do
    let (_, b, rest) ← s.takeTwo op
    return rest.push b
  | depth => .ok (s.push (.number (Float.ofNat s.depth)))
  | clear => .ok s.clear
  | add => s.mapNumbers op fun a b => .ok (.number (a + b))
  | subtract => s.mapNumbers op fun a b => .ok (.number (a - b))
  | multiply => s.mapNumbers op fun a b => .ok (.number (a * b))
  | divide => s.mapNumbers op (unlessZero op (· / ·))
  | modulo => s.mapNumbers op (unlessZero op Number.modulo)
  | negate => s.mapNumber op fun a => .ok (.number (-a))
  | abs => s.mapNumber op fun a => .ok (.number a.abs)
  | sqrt => s.mapNumber op (squareRoot op)
  | min => s.mapNumbers op fun a b => .ok (.number (Number.smaller a b))
  | max => s.mapNumbers op fun a b => .ok (.number (Number.larger a b))
  | equal => s.compareTop op fun a b => a.same b
  | notEqual => s.compareTop op fun a b => !a.same b
  | less => s.mapNumbers op fun a b => .ok (.bool (a < b))
  | greater => s.mapNumbers op fun a b => .ok (.bool (b < a))
  | lessEqual => s.mapNumbers op fun a b => .ok (.bool (a ≤ b))
  | greaterEqual => s.mapNumbers op fun a b => .ok (.bool (b ≤ a))
  | not => do
    let (a, rest) ← s.pop op
    return rest.push (.bool (!a.truthy))
  | and => s.compareTop op fun a b => a.truthy && b.truthy
  | or => s.compareTop op fun a b => a.truthy || b.truthy
  | self => .ok (s.push (match s.owner with | some p => .process p | none => .nil))

end PureWord

end Catena
