import Catena.Store.Bindings
import Catena.Store.Table

/-!
# Environments

Scopes are binding frames, each with at most one outer scope; together they form a forest. An
environment is a handle on the scope that is innermost for it at the moment: entering and leaving
moves the handle, so that all who hold it see the move. Looking a name up goes from the innermost
scope outwards (`Forest.chain`), and defining writes to the innermost scope only.

A new scope always gets a larger number than its outer scope, which is why a chain ends.
-/

namespace Catena

/-- The number of a scope. -/
structure ScopeId where
  index : Nat
  deriving DecidableEq, Inhabited

/-- The number of an environment. -/
structure EnvId where
  index : Nat
  deriving DecidableEq, Inhabited

/-- A frame of bindings and the scope around it. -/
structure Scope (α : Type) where
  bindings : Bindings α
  outer : Option ScopeId

instance {α : Type} : Inhabited (Scope α) := ⟨⟨.empty, none⟩⟩

/-- All scopes, and the innermost scope of every environment. -/
structure Forest (α : Type) where
  scopes : Table (Scope α)
  handles : Table ScopeId

/-- The scope that was innermost for an environment before it entered another. -/
structure Guard where
  env : EnvId
  saved : ScopeId

namespace Forest

variable {α : Type}

/-- No scopes and no environments. -/
def empty : Forest α := ⟨.empty, .empty⟩

instance : Inhabited (Forest α) := ⟨empty⟩

/-- The innermost scope of an environment. -/
def current (f : Forest α) (e : EnvId) : ScopeId := f.handles.get e.index

/-- The scopes from `s` outwards. -/
def chain (f : Forest α) (s : ScopeId) : List (Scope α) :=
  match f.scopes.get? s.index with
  | none => []
  | some scope =>
    match scope.outer with
    | none => [scope]
    | some outer => if outer.index < s.index then scope :: f.chain outer else [scope]
termination_by s.index

theorem chain_of_none {f : Forest α} {s : ScopeId} (h : f.scopes.get? s.index = none) :
    f.chain s = [] := by
  rw [chain]
  simp [h]

theorem chain_of_outermost {f : Forest α} {s : ScopeId} {scope : Scope α}
    (h : f.scopes.get? s.index = some scope) (ho : scope.outer = none) : f.chain s = [scope] := by
  rw [chain]
  simp [h, ho]

theorem chain_of_outer {f : Forest α} {s outer : ScopeId} {scope : Scope α}
    (h : f.scopes.get? s.index = some scope) (ho : scope.outer = some outer) :
    f.chain s = scope :: if outer.index < s.index then f.chain outer else [] := by
  rw [chain]
  by_cases hlt : outer.index < s.index <;> simp [h, ho, hlt]

/-- A chain depends on the scopes alone, not on where the handles stand. -/
theorem chain_congr {f g : Forest α} (h : f.scopes = g.scopes) (s : ScopeId) :
    f.chain s = g.chain s := by
  fun_induction f.chain s with
  | case1 s hs => rw [chain_of_none (h ▸ hs)]
  | case2 s scope hs ho => rw [chain_of_outermost (h ▸ hs) ho]
  | case3 s scope hs outer ho hlt ih =>
    have hg : g.scopes.get? s.index = some scope := h ▸ hs
    rw [ih, chain_of_outer hg ho, if_pos hlt]
  | case4 s scope hs outer ho hlt =>
    have hg : g.scopes.get? s.index = some scope := h ▸ hs
    rw [chain_of_outer hg ho, if_neg hlt]

/-- What `name` means in an environment: its binding in the nearest scope that has one. -/
def lookup (f : Forest α) (e : EnvId) (name : Name) : Option α :=
  (f.chain (f.current e)).findSome? fun scope => scope.bindings.get? name

/-- The number of scopes of an environment. -/
def depth (f : Forest α) (e : EnvId) : Nat := (f.chain (f.current e)).length

/-- The bindings of the innermost scope of an environment. -/
def innermost (f : Forest α) (e : EnvId) : Bindings α := (f.scopes.get (f.current e).index).bindings

/-! ## New scopes and environments -/

/-- Adds a scope. -/
def addScope (f : Forest α) (scope : Scope α) : Forest α × ScopeId :=
  let (scopes, number) := f.scopes.add scope
  ({ f with scopes }, ⟨number⟩)

/-- Adds an environment with a single new scope as its innermost one. -/
def addEnv (f : Forest α) (scope : Scope α) : Forest α × EnvId :=
  let (f, s) := f.addScope scope
  let (handles, number) := f.handles.add s
  ({ f with handles }, ⟨number⟩)

/-- A new environment with one empty scope. -/
def root (f : Forest α) : Forest α × EnvId := f.addEnv ⟨.empty, none⟩

/-- A new environment with one empty scope inside the innermost scope of `e`. What is defined
there later can be seen from it. -/
def child (f : Forest α) (e : EnvId) : Forest α × EnvId := f.addEnv ⟨.empty, some (f.current e)⟩

/-- A new environment with a copy of `bindings` as its only scope. -/
def seeded (f : Forest α) (bindings : Bindings α) : Forest α × EnvId := f.addEnv ⟨bindings, none⟩

/-! ## Changing environments -/

/-- Binds `name` in the innermost scope of `e`. -/
def define (f : Forest α) (e : EnvId) (name : Name) (a : α) : Forest α :=
  { f with scopes := f.scopes.modify (f.current e).index fun scope =>
      { scope with bindings := scope.bindings.insert name a } }

/-- Adds bindings to the innermost scope of `e`; they win over those that are there. -/
def adopt (f : Forest α) (e : EnvId) (bindings : Bindings α) : Forest α :=
  { f with scopes := f.scopes.modify (f.current e).index fun scope =>
      { scope with bindings := scope.bindings.merge bindings } }

/-- Makes `s` the innermost scope of `e`. -/
def moveTo (f : Forest α) (e : EnvId) (s : ScopeId) : Forest α :=
  { f with handles := f.handles.set e.index s }

@[simp] theorem chain_moveTo (f : Forest α) (e : EnvId) (s t : ScopeId) :
    (f.moveTo e s).chain t = f.chain t :=
  chain_congr (show (f.moveTo e s).scopes = f.scopes from rfl) t

theorem current_moveTo_of_ne (f : Forest α) {e e' : EnvId} (s : ScopeId) (h : e ≠ e') :
    (f.moveTo e s).current e' = f.current e' := by
  have hi : e.index ≠ e'.index := fun hi => h (by cases e; cases e'; exact congrArg _ hi)
  simp [current, moveTo, Table.get, Table.set, Table.get?_modify, hi]

theorem current_moveTo_self (f : Forest α) {e : EnvId} (s : ScopeId)
    (h : e.index < f.handles.size) : (f.moveTo e s).current e = s := by
  have hget : (f.handles.get? e.index).isSome := by
    rw [Option.isSome_iff_ne_none, ne_eq, Table.get?_eq_none_iff]
    omega
  obtain ⟨old, hold⟩ := Option.isSome_iff_exists.1 hget
  simp [current, moveTo, Table.get, Table.set, Table.get?_modify, hold]

/-- Enters a new empty scope inside the innermost one. -/
def enter (f : Forest α) (e : EnvId) : Forest α :=
  let (f', s) := f.addScope ⟨.empty, some (f.current e)⟩
  f'.moveTo e s

/-- Goes back to the scope around the innermost one, if there is one. -/
def leave? (f : Forest α) (e : EnvId) : Option (Forest α) :=
  (f.scopes.get (f.current e).index).outer.map fun outer => f.moveTo e outer

/-- Enters a new scope and remembers the way back. -/
def enterScope (f : Forest α) (e : EnvId) : Forest α × Guard :=
  let saved := f.current e
  (f.enter e, ⟨e, saved⟩)

/-- Goes the way back, wherever the environment has moved since. -/
def restore (f : Forest α) (g : Guard) : Forest α := f.moveTo g.env g.saved

end Forest

end Catena
