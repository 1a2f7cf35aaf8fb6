import Catena.Value.Basic

/-!
# Stacks

A stack of values and the process it belongs to, if any. The accessors take the name of the word
that asks, for the wording of failures; they only look, so a word can check all of its operands
before it changes anything.
-/

namespace Catena

/-- Values, the top one first, and the owning process. -/
structure Stack where
  items : List Value
  owner : Option ProcessId

namespace Stack

/-- The empty stack that belongs to no process. -/
def empty : Stack := ⟨[], none⟩

/-- A stack without owner, from its values bottom to top. -/
def ofValues (values : List Value) : Stack := ⟨values.reverse, none⟩

/-- The values, bottom to top. -/
def values (s : Stack) : List Value := s.items.reverse

/-- The empty stack of a process. -/
def ownedBy (p : ProcessId) : Stack := ⟨[], some p⟩

/-- How many values there are. -/
def depth (s : Stack) : Nat := s.items.length

/-- Puts a value on top. -/
def push (s : Stack) (v : Value) : Stack := { s with items := v :: s.items }

@[simp] theorem values_ofValues (vs : List Value) : (ofValues vs).values = vs := by
  simp [values, ofValues]

@[simp] theorem values_push (s : Stack) (v : Value) : (s.push v).values = s.values ++ [v] := by
  simp [values, push]

@[simp] theorem owner_push (s : Stack) (v : Value) : (s.push v).owner = s.owner := rfl

@[simp] theorem depth_push (s : Stack) (v : Value) : (s.push v).depth = s.depth + 1 := rfl

theorem length_values (s : Stack) : s.values.length = s.depth := by simp [values, depth]

/-- The value on top. -/
def top? (s : Stack) : Option Value := s.items.head?

@[simp] theorem top?_push (s : Stack) (v : Value) : (s.push v).top? = some v := rfl

/-- Removes all values; the owner stays. -/
def clear (s : Stack) : Stack := { s with items := [] }

/-- Fails unless at least `needed` values are there. -/
def need (s : Stack) (op : String) (needed : Nat) : Except Error Unit :=
  if s.depth < needed then .error (.stackUnderflow op needed s.depth) else .ok ()

theorem need_eq_ok_iff (s : Stack) (op : String) (needed : Nat) :
    s.need op needed = .ok () ↔ needed ≤ s.depth := by
  rcases Nat.lt_or_ge s.depth needed with h | h
  · simp [need, h]
  · simp [need, h, Nat.not_lt.2 h]

/-- The value `depth` places below the top. -/
def peek (s : Stack) (op : String) (depth : Nat) : Except Error Value :=
  match s.items[depth]? with
  | some v => .ok v
  | none => .error (.stackUnderflow op (depth + 1) s.depth)

@[simp] theorem peek_push_zero (s : Stack) (op : String) (v : Value) :
    (s.push v).peek op 0 = .ok v := rfl

/-- Removes the top `n` values. -/
def dropTop (s : Stack) (op : String) (n : Nat) : Except Error Stack := do
  s.need op n
  return { s with items := s.items.drop n }

/-- Takes the top value off. -/
def pop (s : Stack) (op : String) : Except Error (Value × Stack) :=
  match s.items with
  | v :: rest => .ok (v, { s with items := rest })
  | [] => .error (.stackUnderflow op 1 0)

@[simp] theorem pop_push (s : Stack) (op : String) (v : Value) :
    (s.push v).pop op = .ok (v, s) := rfl

@[simp] theorem dropTop_push_one (s : Stack) (op : String) (v : Value) :
    (s.push v).dropTop op 1 = .ok s := by
  simp [dropTop, need, push, depth, bind, Except.bind, pure, Except.pure]

/-! ## Operands of a kind -/

/-- The number `depth` places below the top. -/
def peekNumber (s : Stack) (op : String) (depth : Nat) : Except Error Float := do
  match ← s.peek op depth with
  | .number x => return x
  | v => throw (.typeMismatch op .number v.kind)

/-- The block `depth` places below the top. -/
def peekBlock (s : Stack) (op : String) (depth : Nat) : Except Error Block := do
  match ← s.peek op depth with
  | .block id code => return ⟨id, code⟩
  | v => throw (.typeMismatch op .block v.kind)

/-- The name of the symbol `depth` places below the top. -/
def peekSymbol (s : Stack) (op : String) (depth : Nat) : Except Error Name := do
  match ← s.peek op depth with
  | .symbol name => return name
  | v => throw (.typeMismatch op .symbol v.kind)

/-- The vocabulary `depth` places below the top. -/
def peekVocabulary (s : Stack) (op : String) (depth : Nat) : Except Error VocabularyId := do
  match ← s.peek op depth with
  | .vocabulary v => return v
  | v => throw (.typeMismatch op .vocabulary v.kind)

/-- The object `depth` places below the top. -/
def peekObject (s : Stack) (op : String) (depth : Nat) : Except Error ObjectId := do
  match ← s.peek op depth with
  | .object o => return o
  | v => throw (.typeMismatch op .object v.kind)

/-- The process `depth` places below the top. -/
def peekProcess (s : Stack) (op : String) (depth : Nat) : Except Error ProcessId := do
  match ← s.peek op depth with
  | .process p => return p
  | v => throw (.typeMismatch op .process v.kind)

/-- The dataflow variable `depth` places below the top. -/
def peekDataflow (s : Stack) (op : String) (depth : Nat) : Except Error VariableId := do
  match ← s.peek op depth with
  | .dataflow v => return v
  | v => throw (.typeMismatch op .dataflow v.kind)

end Stack

end Catena
