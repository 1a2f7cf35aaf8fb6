import Catena.Store.Bindings
import Catena.Text.Quoted

/-!
# Programs as data

A program is a list of data: literals, words and blocks of further data. Each block carries a
label; the reader leaves it empty, and loading a program gives every block literal an identity of
its own (`Datum.label`). What a datum is and how it prints do not depend on the labels.
-/

namespace Catena

/-- One item of a program whose blocks are labelled by `ι`. -/
inductive Datum (ι : Type) where
  | nil
  | bool (b : Bool)
  | number (x : Float)
  | text (s : String)
  /-- A name that running the program looks up. -/
  | word (name : Name)
  /-- A name that stands for itself. -/
  | symbol (name : Name)
  /-- A sequence of data to be run later. -/
  | block (label : ι) (body : List (Datum ι))

/-- A program as it is read: its blocks have no identity yet. -/
abbrev Program := List (Datum Unit)

namespace Datum

variable {ι κ : Type}

/-- The kind of a datum. -/
def kind : Datum ι → Kind
  | nil => .nil
  | bool _ => .bool
  | number _ => .number
  | text _ => .string
  | word _ => .word
  | symbol _ => .symbol
  | block _ _ => .block

/-- `nil`, `false` and zero count as false, everything else as true. -/
def truthy : Datum ι → Bool
  | nil => false
  | bool b => b
  | number x => x != 0
  | _ => true

/-! ## Text -/

mutual

/-- The text of a datum, in the notation that the reader accepts. -/
def display : Datum ι → String
  | nil => "nil"
  | bool b => if b then "true" else "false"
  | number x => Number.display x
  | text s => Text.Quoted.quote s
  | word name => name
  | symbol name => ":" ++ name
  | block _ body => "[" ++ displayBody body ++ " ]"

/-- The text of the items of a block, each after a space. -/
def displayBody : List (Datum ι) → String
  | [] => ""
  | d :: ds => " " ++ display d ++ displayBody ds

end

/-! ## Words -/

mutual

/-- Adds to `found` what `lookup` knows of the words of a datum, those of nested blocks included. A
name that `found` binds already keeps its binding. -/
def collect {α : Type} (lookup : Name → Option α) (found : Bindings α) : Datum ι → Bindings α
  | word name =>
    if (found.get? name).isSome then found
    else match lookup name with
      | some a => found.insert name a
      | none => found
  | block _ body => collectAll lookup found body
  | _ => found

/-- Adds to `found` what `lookup` knows of the words of a sequence of data, one after the other. -/
def collectAll {α : Type} (lookup : Name → Option α) (found : Bindings α) :
    List (Datum ι) → Bindings α
  | [] => found
  | d :: ds => collectAll lookup (collect lookup found d) ds

end

/-! ## Labels -/

mutual

/-- Gives the blocks of a datum the labels `make n`, `make (n + 1)` and so on; also returns the
first number not used. -/
def label (make : Nat → κ) : Datum ι → Nat → Datum κ × Nat
  | nil, n => (nil, n)
  | bool b, n => (bool b, n)
  | number x, n => (number x, n)
  | text s, n => (text s, n)
  | word name, n => (word name, n)
  | symbol name, n => (symbol name, n)
  | block _ body, n =>
    let (body, next) := labelAll make body (n + 1)
    (block (make n) body, next)

/-- Gives the blocks of a sequence of data successive labels. -/
def labelAll (make : Nat → κ) : List (Datum ι) → Nat → List (Datum κ) × Nat
  | [], n => ([], n)
  | d :: ds, n =>
    let (d, n) := label make d n
    let (ds, n) := labelAll make ds n
    (d :: ds, n)

end

mutual

theorem display_label (make : Nat → κ) :
    ∀ (d : Datum ι) (n : Nat), (label make d n).1.display = d.display
  | nil, _ | bool _, _ | number _, _ | text _, _ | word _, _ | symbol _, _ => by
    simp [label, display]
  | block _ body, n => by
    simp [label, display, displayBody_labelAll make body (n + 1)]

theorem displayBody_labelAll (make : Nat → κ) :
    ∀ (ds : List (Datum ι)) (n : Nat), displayBody (labelAll make ds n).1 = displayBody ds
  | [], _ => by simp [labelAll, displayBody]
  | d :: ds, n => by
    simp [labelAll, displayBody, display_label make d n,
      displayBody_labelAll make ds (label make d n).2]

end

end Datum

end Catena
