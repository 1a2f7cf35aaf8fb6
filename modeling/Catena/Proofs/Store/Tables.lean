import Catena.Store.Forest
import Mathlib.Algebra.Order.BigOperators.Group.Finset

/-!
# What holds of a whole store

Two ways of speaking about all entries of a table at once: every entry has a property
(`Table.All`), and the entries have some weight in all (`Table.total`). For both there is one lemma
for each way of changing a table. `Bindings.All` says the same of the bindings of a scope, and
`Forest.All` of the bindings of all scopes.
-/

namespace Catena

open Finset

namespace Table

variable {α : Type}

theorem get?_of_lt [Inhabited α] {t : Table α} {i : Nat} (h : i < t.size) :
    t.get? i = some (t.get i) := by
  cases hg : t.get? i with
  | none => exact absurd ((get?_eq_none_iff t i).1 hg) (by omega)
  | some a => simp [get, hg]

theorem lt_of_get? {t : Table α} {i : Nat} {a : α} (h : t.get? i = some a) : i < t.size := by
  by_contra hn
  rw [(get?_eq_none_iff t i).2 (by omega)] at h
  cases h

theorem get_eq_of_get? [Inhabited α] {t : Table α} {i : Nat} {a : α} (h : t.get? i = some a) :
    t.get i = a := by simp [get, h]

theorem get_of_size_le [Inhabited α] {t : Table α} {i : Nat} (h : t.size ≤ i) :
    t.get i = default := by simp [get, (get?_eq_none_iff t i).2 h]

theorem size_lt_size_push (t : Table α) (a : α) : t.size < (t.push a).size := by
  rw [size_push]
  exact Nat.lt_succ_self _

theorem get_push_of_lt [Inhabited α] {t : Table α} {i : Nat} (a : α) (h : i < t.size) :
    (t.push a).get i = t.get i := by
  simp [get, get?_push, show i ≠ t.size by omega]

@[simp] theorem get_push_size [Inhabited α] (t : Table α) (a : α) : (t.push a).get t.size = a := by
  simp [get, get?_push]

theorem get_modify_self [Inhabited α] {t : Table α} {i : Nat} (f : α → α) (h : i < t.size) :
    (t.modify i f).get i = f (t.get i) := by
  have hg : (t.modify i f).get? i = some (f (t.get i)) := by
    rw [get?_modify, if_pos rfl, get?_of_lt h, Option.map_some]
  exact get_eq_of_get? hg

theorem get_modify_of_ne [Inhabited α] (t : Table α) {i j : Nat} (f : α → α) (h : i ≠ j) :
    (t.modify i f).get j = t.get j := by simp [get, get?_modify, h]

@[simp] theorem size_set (t : Table α) (i : Nat) (a : α) : (t.set i a).size = t.size :=
  size_modify t i _

theorem get_set_self [Inhabited α] {t : Table α} {i : Nat} (a : α) (h : i < t.size) :
    (t.set i a).get i = a := get_modify_self _ h

theorem get_set_of_ne [Inhabited α] (t : Table α) {i j : Nat} (a : α) (h : i ≠ j) :
    (t.set i a).get j = t.get j := get_modify_of_ne t _ h

theorem ext_get? {t u : Table α} (h : ∀ i, t.get? i = u.get? i) : t = u := by
  obtain ⟨a⟩ := t
  obtain ⟨b⟩ := u
  exact congrArg mk (Array.ext_getElem? h)

/-- Changing an entry that is not there changes nothing. -/
theorem modify_of_size_le {t : Table α} {i : Nat} (f : α → α) (h : t.size ≤ i) :
    t.modify i f = t := by
  apply ext_get?
  intro j
  rw [get?_modify]
  split
  · rename_i hij
    subst hij
    rw [(get?_eq_none_iff t i).2 h, Option.map_none]
  · rfl

theorem set_set (t : Table α) (i : Nat) (a b : α) : (t.set i a).set i b = t.set i b := by
  apply ext_get?
  intro j
  simp only [set, get?_modify]
  split
  · cases t.get? j <;> rfl
  · rfl

theorem set_get [Inhabited α] (t : Table α) (i : Nat) : t.set i (t.get i) = t := by
  apply ext_get?
  intro j
  simp only [set, get?_modify]
  split
  · rename_i hij
    subst hij
    simp only [get]
    cases t.get? i <;> rfl
  · rfl

/-! ## Changing every entry -/

/-- Changes every entry. -/
def map (f : α → α) (t : Table α) : Table α := ⟨t.entries.map f⟩

theorem get?_map (f : α → α) (t : Table α) (i : Nat) : (t.map f).get? i = (t.get? i).map f := by
  simp [get?, map]

@[simp] theorem size_map (f : α → α) (t : Table α) : (t.map f).size = t.size := by
  simp [size, map]

theorem get_map [Inhabited α] {f : α → α} (hf : f default = default) (t : Table α) (i : Nat) :
    (t.map f).get i = f (t.get i) := by
  simp only [get, get?_map]
  cases t.get? i with
  | some a => rfl
  | none => exact hf.symm

theorem map_modify {f g k : α → α} (h : ∀ a, f (g a) = k (f a)) (t : Table α) (i : Nat) :
    (t.modify i g).map f = (t.map f).modify i k := by
  apply ext_get?
  intro j
  simp only [get?_map, get?_modify]
  split
  · cases t.get? j with
    | some a => simp [h]
    | none => rfl
  · rfl

/-! ## Every entry -/

/-- Every entry has `P`, which may speak of its number. -/
def All (P : Nat → α → Prop) (t : Table α) : Prop := ∀ i a, t.get? i = some a → P i a

variable {P Q : Nat → α → Prop} {t : Table α}

theorem All.empty : (Table.empty : Table α).All P := fun i a h => by simp at h

theorem All.imp (h : t.All P) (hPQ : ∀ i a, P i a → Q i a) : t.All Q :=
  fun i a ha => hPQ i a (h i a ha)

theorem All.imp_of_lt (h : t.All P) (hPQ : ∀ i a, i < t.size → P i a → Q i a) : t.All Q :=
  fun i a ha => hPQ i a (lt_of_get? ha) (h i a ha)

theorem All.get [Inhabited α] (h : t.All P) {i : Nat} (hi : i < t.size) : P i (t.get i) :=
  h i _ (get?_of_lt hi)

/-- Numbers that were never given out have the default entry. -/
theorem All.get_of_default [Inhabited α] (h : t.All P) {i : Nat} (hd : P i default) :
    P i (t.get i) := by
  rcases Nat.lt_or_ge i t.size with hi | hi
  · exact h.get hi
  · rw [get_of_size_le hi]
    exact hd

theorem All.push (h : t.All P) {a : α} (ha : P t.size a) : (t.push a).All P := by
  intro i b hb
  rw [get?_push] at hb
  split at hb
  · rename_i hi
    cases hb
    exact hi ▸ ha
  · exact h i b hb

theorem All.grow (h : t.All P) (n : Nat) {a : α} (ha : ∀ i, P i a) : (t.grow n a).All P := by
  intro i b hb
  rw [get?_grow] at hb
  split at hb
  · exact h i b hb
  · split at hb
    · cases hb
      exact ha i
    · cases hb

theorem All.modify (h : t.All P) {i : Nat} {f : α → α}
    (hf : ∀ a, t.get? i = some a → P i a → P i (f a)) : (t.modify i f).All P := by
  intro j b hb
  rw [get?_modify] at hb
  split at hb
  · rename_i hij
    subst hij
    obtain ⟨a, ha, rfl⟩ := Option.map_eq_some_iff.1 hb
    exact hf a ha (h i a ha)
  · exact h j b hb

theorem All.set (h : t.All P) {i : Nat} {a : α} (ha : P i a) : (t.set i a).All P :=
  h.modify fun _ _ _ => ha

/-! ## All entries together -/

variable [Inhabited α]

/-- The sum of the weights of all entries. -/
def total (f : α → Nat) (t : Table α) : Nat := ∑ i ∈ range t.size, f (t.get i)

@[simp] theorem total_empty (f : α → Nat) : (Table.empty : Table α).total f = 0 := by simp [total]

theorem total_push (f : α → Nat) (t : Table α) (a : α) :
    (t.push a).total f = t.total f + f a := by
  simp only [total, size_push, sum_range_succ, get_push_size]
  congr 1
  exact sum_congr rfl fun i hi => by rw [get_push_of_lt a (mem_range.1 hi)]

/-- Changing an entry changes the total by what it changes the weight of the entry. -/
theorem total_modify (f : α → Nat) {t : Table α} {i : Nat} (g : α → α) (h : i < t.size) :
    (t.modify i g).total f + f (t.get i) = t.total f + f (g (t.get i)) := by
  have hi : i ∈ range t.size := mem_range.2 h
  have hrest : ∑ j ∈ (range t.size).erase i, f ((t.modify i g).get j) =
      ∑ j ∈ (range t.size).erase i, f (t.get j) :=
    sum_congr rfl fun j hj => by rw [get_modify_of_ne t g (ne_of_mem_erase hj).symm]
  simp only [total, size_modify]
  rw [← add_sum_erase _ (fun j => f ((t.modify i g).get j)) hi,
    ← add_sum_erase _ (fun j => f (t.get j)) hi, hrest, get_modify_self g h]
  omega

theorem total_modify_of_eq (f : α → Nat) {t : Table α} {i : Nat} {g : α → α}
    (h : i < t.size → f (g (t.get i)) = f (t.get i)) : (t.modify i g).total f = t.total f := by
  rcases Nat.lt_or_ge i t.size with hi | hi
  · have := total_modify f g hi
    have := h hi
    omega
  · rw [modify_of_size_le g hi]

theorem le_total (f : α → Nat) {t : Table α} {i : Nat} (h : i < t.size) : f (t.get i) ≤ t.total f :=
  single_le_sum (f := fun j => f (t.get j)) (fun _ _ => Nat.zero_le _) (mem_range.2 h)

end Table

namespace Bindings

variable {α : Type} {P Q : α → Prop} {b c : Bindings α}

/-- Every name is bound to something with `P`. -/
def All (P : α → Prop) (b : Bindings α) : Prop := ∀ name a, b.get? name = some a → P a

theorem All.empty : (Bindings.empty : Bindings α).All P := fun name a h => by simp at h

theorem All.imp (h : b.All P) (hPQ : ∀ a, P a → Q a) : b.All Q :=
  fun name a ha => hPQ a (h name a ha)

theorem All.insert (h : b.All P) {name : Name} {a : α} (ha : P a) : (b.insert name a).All P := by
  intro other a' h'
  rw [get?_insert] at h'
  split at h'
  · cases h'
    exact ha
  · exact h other a' h'

theorem All.merge (h : b.All P) (hc : c.All P) : (b.merge c).All P := by
  intro name a ha
  rw [get?_merge] at ha
  rcases Option.or_eq_some_iff.1 ha with ha | ⟨_, ha⟩
  · exact hc name a ha
  · exact h name a ha

end Bindings

namespace Forest

variable {α : Type} {P : α → Prop} {f : Forest α}

/-- Every scope binds names to things with `P` only. -/
def All (P : α → Prop) (f : Forest α) : Prop := f.scopes.All fun _ scope => scope.bindings.All P

theorem All.chain (h : f.All P) (s : ScopeId) : ∀ scope ∈ f.chain s, scope.bindings.All P := by
  fun_induction f.chain s with
  | case1 s hs => simp
  | case2 s scope hs ho =>
    intro scope' h'
    rw [List.mem_singleton.1 h']
    exact h _ _ hs
  | case3 s scope hs outer ho hlt ih =>
    intro scope' h'
    rcases List.mem_cons.1 h' with rfl | h'
    · exact h _ _ hs
    · exact ih scope' h'
  | case4 s scope hs outer ho hlt =>
    intro scope' h'
    rw [List.mem_singleton.1 h']
    exact h _ _ hs

/-- Names mean things with `P` only. -/
theorem All.lookup (h : f.All P) {e : EnvId} {name : Name} {a : α}
    (ha : f.lookup e name = some a) : P a := by
  obtain ⟨scope, hscope, ha⟩ := List.exists_of_findSome?_eq_some ha
  exact h.chain _ scope hscope name a ha

theorem All.innermost (h : f.All P) (e : EnvId) : (f.innermost e).All P :=
  Table.All.get_of_default h .empty

theorem All.addEnv (h : f.All P) {scope : Scope α} (hs : scope.bindings.All P) :
    (f.addEnv scope).1.All P := Table.All.push h hs

theorem All.define (h : f.All P) (e : EnvId) (name : Name) {a : α} (ha : P a) :
    (f.define e name a).All P := Table.All.modify h fun _ _ hb => hb.insert ha

theorem All.adopt (h : f.All P) (e : EnvId) {b : Bindings α} (hb : b.All P) :
    (f.adopt e b).All P := Table.All.modify h fun _ _ hc => hc.merge hb

theorem All.enter (h : f.All P) (e : EnvId) : (f.enter e).All P :=
  Table.All.push h (a := ⟨.empty, some (f.current e)⟩) .empty

end Forest

end Catena
