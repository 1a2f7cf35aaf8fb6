import Catena.Text.Joining.Basic

/-!
# Erasing while typing

A backspace in a typed line takes back the sign before it, with all the characters that belong to
it. What it takes back is counted in bytes, and the count of a sign is kept in one byte.
-/

namespace Catena.Text

/-- A line while it is typed. -/
structure Typing where
  edge : Edge := {}
  /-- The characters so far, the last one first. -/
  kept : List Char := []
  /-- The size in bytes of each sign that can be taken back, the last one first. -/
  sizes : List UInt8 := []

/-- Takes characters off the front until the given number of bytes is used up. -/
def dropBytes : Nat → List Char → List Char
  | _, [] => []
  | n, c :: cs => if c.utf8Size ≤ n then dropBytes (n - c.utf8Size) cs else c :: cs

namespace Typing

/-- Takes back the last sign, if there is one. -/
def takeBack (t : Typing) : Typing :=
  match t.sizes with
  | [] => t
  | n :: sizes => { t with kept := dropBytes n.toNat t.kept, sizes }

/-- Adds a character, to the last sign if it belongs there. -/
def add (t : Typing) (c : Char) : Typing :=
  let size := c.utf8Size.toUInt8
  { t with
    kept := c :: t.kept
    sizes := match t.sizes with
      | n :: sizes => if t.edge.joins c then (n + size) :: sizes else size :: n :: sizes
      | [] => [size] }

/-- The line after one more key. -/
def key (t : Typing) (c : Char) : Typing :=
  let t' := if c = '\x08' then t.takeBack else t.add c
  { t' with edge := t.edge.next c }

@[simp]
theorem kept_key_of_ne (t : Typing) {c : Char} (h : c ≠ '\x08') :
    (t.key c).kept = c :: t.kept := by
  simp [key, add, h]

theorem kept_foldl_key {cs : List Char} (h : '\x08' ∉ cs) (t : Typing) :
    (cs.foldl key t).kept = cs.reverse ++ t.kept := by
  induction cs generalizing t with
  | nil => rfl
  | cons c cs ih =>
    obtain ⟨hc, hcs⟩ : '\x08' ≠ c ∧ '\x08' ∉ cs := by simpa using h
    rw [List.foldl_cons, ih hcs, kept_key_of_ne t hc.symm, List.reverse_cons, List.append_assoc]
    rfl

end Typing

/-- The line that results from typing some text. -/
def typed (text : String) : String :=
  String.ofList (text.toList.foldl Typing.key {}).kept.reverse

/-- A line in which nothing is taken back is typed as it stands. -/
theorem typed_eq_self {text : String} (h : '\x08' ∉ text.toList) : typed text = text := by
  rw [typed, Typing.kept_foldl_key h]
  simp

end Catena.Text
