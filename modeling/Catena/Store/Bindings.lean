import Catena.Error

/-!
# Bindings

A finite map from names: one scope of an environment, the snapshot of a block, a vocabulary or the
properties of an object. `get?` is its only view besides the list of names.
-/

namespace Catena

/-- A finite map from names to `α`. -/
structure Bindings (α : Type) where
  entries : List (Name × α)

namespace Bindings

variable {α : Type}

/-- The map that binds nothing. -/
def empty : Bindings α := ⟨[]⟩

instance : Inhabited (Bindings α) := ⟨empty⟩

/-- What `name` is bound to. -/
def get? (b : Bindings α) (name : Name) : Option α := b.entries.lookup name

/-- Binds `name` to `a`, whatever it was bound to before. -/
def insert (b : Bindings α) (name : Name) (a : α) : Bindings α :=
  ⟨(name, a) :: b.entries.filter fun entry => entry.1 != name⟩

/-- Adds all bindings of `other`; where both bind a name, `other` wins. -/
def merge (b other : Bindings α) : Bindings α :=
  other.entries.foldr (fun entry acc => acc.insert entry.1 entry.2) b

/-- How many names are bound. -/
def size (b : Bindings α) : Nat := b.entries.length

/-- The names that are bound, in the order of their code points. -/
def names (b : Bindings α) : List Name :=
  (b.entries.map (·.1)).mergeSort fun a b => decide (a ≤ b)

@[simp] theorem get?_empty (name : Name) : (empty : Bindings α).get? name = none := rfl

theorem lookup_cons_ne (rest : List (Name × α)) {key name : Name} (a : α) (h : name ≠ key) :
    ((key, a) :: rest).lookup name = rest.lookup name := by
  simp [List.lookup_cons, beq_false_of_ne h]

theorem lookup_filter_ne (entries : List (Name × α)) {name other : Name} (h : other ≠ name) :
    (entries.filter fun entry => entry.1 != name).lookup other = entries.lookup other := by
  induction entries with
  | nil => rfl
  | cons entry rest ih =>
    obtain ⟨key, a⟩ := entry
    by_cases hk : key = name
    · subst hk
      simp [lookup_cons_ne rest a h, ih]
    · by_cases ho : other = key
      · subst ho; simp [hk]
      · simp [hk, lookup_cons_ne _ a ho, ih]

theorem get?_insert (b : Bindings α) (name other : Name) (a : α) :
    (b.insert name a).get? other = if other = name then some a else b.get? other := by
  by_cases h : other = name
  · simp [get?, insert, h]
  · simp [get?, insert, h, lookup_cons_ne _ a h, lookup_filter_ne b.entries h]

theorem get?_merge (b other : Bindings α) (name : Name) :
    (b.merge other).get? name = (other.get? name).or (b.get? name) := by
  obtain ⟨entries⟩ := other
  unfold merge
  induction entries with
  | nil => rfl
  | cons entry rest ih =>
    obtain ⟨key, a⟩ := entry
    simp only [List.foldr_cons, get?_insert, ih]
    by_cases h : name = key
    · simp [h, get?]
    · simp [h, get?, lookup_cons_ne _ a h]

end Bindings

end Catena
