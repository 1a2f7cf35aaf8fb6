/-!
# Tables

A table gives each entry a number when it is added and never removes one. Looking a number up that
was never given out yields the default entry, and changing it changes nothing.
-/

namespace Catena

/-- Entries numbered from zero. -/
structure Table (α : Type) where
  entries : Array α

namespace Table

variable {α : Type}

/-- The table without entries. -/
def empty : Table α := ⟨#[]⟩

instance : Inhabited (Table α) := ⟨empty⟩

/-- How many entries there are; also the number of the next one. -/
def size (t : Table α) : Nat := t.entries.size

/-- The entry with number `i`, if there is one. -/
def get? (t : Table α) (i : Nat) : Option α := t.entries[i]?

/-- The entry with number `i`, or the default. -/
def get [Inhabited α] (t : Table α) (i : Nat) : α := (t.get? i).getD default

/-- Adds an entry; its number is the size of the table before. -/
def push (t : Table α) (a : α) : Table α := ⟨t.entries.push a⟩

/-- Adds an entry and tells its number. The number is taken first, so that the table need not be
kept while it grows. -/
def add (t : Table α) (a : α) : Table α × Nat :=
  let number := t.size
  (t.push a, number)

/-- Adds `n` copies of an entry. -/
def grow (t : Table α) (n : Nat) (a : α) : Table α := ⟨t.entries ++ Array.replicate n a⟩

/-- Changes the entry with number `i`. -/
def modify (t : Table α) (i : Nat) (f : α → α) : Table α := ⟨t.entries.modify i f⟩

/-- Puts `a` in place of the entry with number `i`. -/
def set (t : Table α) (i : Nat) (a : α) : Table α := t.modify i fun _ => a

@[simp] theorem size_empty : (empty : Table α).size = 0 := rfl

@[simp] theorem size_push (t : Table α) (a : α) : (t.push a).size = t.size + 1 := by
  simp [size, push]

@[simp] theorem add_fst (t : Table α) (a : α) : (t.add a).1 = t.push a := rfl

@[simp] theorem add_snd (t : Table α) (a : α) : (t.add a).2 = t.size := rfl

@[simp] theorem size_grow (t : Table α) (n : Nat) (a : α) : (t.grow n a).size = t.size + n := by
  simp [size, grow]

@[simp] theorem size_modify (t : Table α) (i : Nat) (f : α → α) : (t.modify i f).size = t.size := by
  simp [size, modify]

@[simp] theorem get?_empty (i : Nat) : (empty : Table α).get? i = none := by
  simp [get?, empty]

theorem get?_push (t : Table α) (a : α) (i : Nat) :
    (t.push a).get? i = if i = t.size then some a else t.get? i := by
  by_cases h : i = t.entries.size <;> simp [get?, push, size, Array.getElem?_push, h]

theorem get?_grow (t : Table α) (n : Nat) (a : α) (i : Nat) :
    (t.grow n a).get? i =
      if i < t.size then t.get? i else if i < t.size + n then some a else none := by
  by_cases h : i < t.entries.size
  · simp [get?, grow, size, h, Array.getElem?_append]
  · by_cases hn : i < t.entries.size + n
    · simp [get?, grow, size, h, hn, Array.getElem_append]
    · simp [get?, grow, size, h, hn]

theorem get?_modify (t : Table α) (i j : Nat) (f : α → α) :
    (t.modify i f).get? j = if i = j then (t.get? j).map f else t.get? j := by
  simp only [get?, modify, Array.getElem?_modify]

theorem get?_eq_none_iff (t : Table α) (i : Nat) : t.get? i = none ↔ t.size ≤ i := by
  simp [get?, size]

end Table

end Catena
