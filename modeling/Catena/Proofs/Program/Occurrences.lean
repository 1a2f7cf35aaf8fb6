import Catena.Program.Datum

/-!
# What occurs in a program

A datum occurs in a program as one of its items or, at any depth, in one of its blocks
(`Datum.OccursIn`). Collecting the words of a program goes through the blocks with what has been
found so far and passes over names that it has met before; in the end it has found just the words
that occur there and are known (`Datum.get?_collectAll`).
-/

namespace Catena

namespace Datum

variable {ι α : Type}

/-- A datum is one of a sequence, or occurs in a block that is. -/
inductive OccursIn (x : Datum ι) : List (Datum ι) → Prop
  | item {ds : List (Datum ι)} (h : x ∈ ds) : OccursIn x ds
  | nested {ds : List (Datum ι)} {label : ι} {body : List (Datum ι)} (h : block label body ∈ ds)
      (hx : OccursIn x body) : OccursIn x ds

theorem not_occursIn_nil {x : Datum ι} : ¬x.OccursIn [] := by
  rintro (h | ⟨h, -⟩) <;> cases h

theorem occursIn_cons (x d : Datum ι) (ds : List (Datum ι)) :
    x.OccursIn (d :: ds) ↔ x.OccursIn [d] ∨ x.OccursIn ds := by
  constructor
  · rintro (h | ⟨h, hx⟩)
    · rcases List.mem_cons.1 h with rfl | h
      · exact .inl (.item (List.mem_singleton.2 rfl))
      · exact .inr (.item h)
    · rcases List.mem_cons.1 h with rfl | h
      · exact .inl (.nested (List.mem_singleton.2 rfl) hx)
      · exact .inr (.nested h hx)
  · have hmono {es : List (Datum ι)} (hes : es ⊆ d :: ds) (h : x.OccursIn es) :
        x.OccursIn (d :: ds) := by
      cases h with
      | item h => exact .item (hes h)
      | nested h hx => exact .nested (hes h) hx
    rintro (h | h)
    · exact hmono (by simp) h
    · exact hmono (by simp) h

theorem occursIn_block {x : Datum ι} {label : ι} {body : List (Datum ι)} :
    x.OccursIn [block label body] ↔ x = block label body ∨ x.OccursIn body := by
  constructor
  · rintro (h | ⟨h, hx⟩)
    · exact .inl (List.mem_singleton.1 h)
    · cases List.mem_singleton.1 h
      exact .inr hx
  · rintro (rfl | hx)
    · exact .item (List.mem_singleton.2 rfl)
    · exact .nested (List.mem_singleton.2 rfl) hx

theorem occursIn_atom {x d : Datum ι} (hd : ∀ label body, d ≠ block label body) :
    x.OccursIn [d] ↔ x = d := by
  constructor
  · rintro (h | ⟨h, -⟩)
    · exact List.mem_singleton.1 h
    · exact absurd (List.mem_singleton.1 h).symm (hd _ _)
  · rintro rfl
    exact .item (List.mem_singleton.2 rfl)

/-! ## Collecting words -/

open Classical in
mutual

theorem get?_collect (lookup : Name → Option α) (found : Bindings α) (name : Name) :
    ∀ d : Datum ι, (collect lookup found d).get? name =
      (found.get? name).or (if (word name).OccursIn [d] then lookup name else none)
  | word other => by
    rw [occursIn_atom (by simp), word.injEq, collect]
    by_cases hname : name = other
    · subst hname
      cases hf : found.get? name <;> cases hl : lookup name <;> simp [hf, Bindings.get?_insert]
    · cases hf : (found.get? other).isSome <;> cases hl : lookup other <;>
        simp [hname, Bindings.get?_insert]
  | block label body => by
    rw [collect, get?_collectAll lookup found name body, occursIn_block]
    simp
  | nil | bool _ | number _ | text _ | symbol _ => by
    simp [collect, occursIn_atom]

theorem get?_collectAll (lookup : Name → Option α) (found : Bindings α) (name : Name) :
    ∀ ds : List (Datum ι), (collectAll lookup found ds).get? name =
      (found.get? name).or (if (word name).OccursIn ds then lookup name else none)
  | [] => by simp [collectAll, not_occursIn_nil]
  | d :: ds => by
    rw [collectAll, get?_collectAll lookup _ name ds, get?_collect lookup found name d,
      occursIn_cons _ d ds, Option.or_assoc]
    by_cases hd : (word name).OccursIn [d] <;> by_cases hds : (word name).OccursIn ds <;>
      simp [hd, hds]

end

end Datum

end Catena
