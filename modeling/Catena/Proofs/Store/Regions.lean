import Catena.Proofs.Store.Tables

/-!
# Regions

A region is a set of environments together with their scopes. It is closed when the handles of its
environments, and no others, stand on its scopes, and the scopes around its scopes belong to it. What
a name means in an environment of a closed region is then bound in a scope of the region
(`Encloses.lookup`), and changes to environments outside do not reach it. How far a change reaches
is said by `Alters`: all but some scopes and some environments are as they were.
-/

namespace Catena

/-- Some environments and scopes. -/
structure Region where
  envs : List EnvId := []
  scopes : List ScopeId := []

namespace Region

/-- The region with one more scope. -/
def addScope (r : Region) (s : ScopeId) : Region := { r with scopes := s :: r.scopes }

/-- The region with one more environment. -/
def addEnv (r : Region) (e : EnvId) : Region := { r with envs := e :: r.envs }

end Region

namespace Forest

variable {α : Type}

/-- Environments and scopes are only ever added. -/
structure Grows (f f' : Forest α) : Prop where
  handles : f.handles.size ≤ f'.handles.size
  scopes : f.scopes.size ≤ f'.scopes.size

namespace Grows

variable {f f' f'' : Forest α}

theorem refl (f : Forest α) : f.Grows f := ⟨le_rfl, le_rfl⟩

theorem trans (h : f.Grows f') (h' : f'.Grows f'') : f.Grows f'' :=
  ⟨h.handles.trans h'.handles, h.scopes.trans h'.scopes⟩

theorem addScope (f : Forest α) (scope : Scope α) : f.Grows (f.addScope scope).1 :=
  ⟨le_rfl, (Table.size_lt_size_push _ _).le⟩

theorem addEnv (f : Forest α) (scope : Scope α) : f.Grows (f.addEnv scope).1 :=
  ⟨(Table.size_lt_size_push _ _).le, (addScope f scope).scopes⟩

theorem moveTo (f : Forest α) (e : EnvId) (s : ScopeId) : f.Grows (f.moveTo e s) :=
  ⟨(Table.size_set _ _ _).ge, le_rfl⟩

theorem enter (f : Forest α) (e : EnvId) : f.Grows (f.enter e) :=
  (addScope f ⟨.empty, some (f.current e)⟩).trans (moveTo _ e _)

end Grows

theorem size_scopes_define (f : Forest α) (e : EnvId) (name : Name) (a : α) :
    (f.define e name a).scopes.size = f.scopes.size := Table.size_modify _ _ _

/-- A new environment stands on its one scope. -/
theorem current_addEnv (f : Forest α) (scope : Scope α) :
    (f.addEnv scope).1.current ⟨f.handles.size⟩ = ⟨f.scopes.size⟩ := Table.get_push_size _ _

/-- `f'` is `f` with more scopes and environments. Of what was there, only the bindings of the
scopes in `S` and the handles of the environments in `E` may have changed. -/
structure Alters (S : ScopeId → Prop) (E : EnvId → Prop) (f f' : Forest α) : Prop
    extends f.Grows f' where
  outer : ∀ i < f.scopes.size,
    (f'.scopes.get? i).map Scope.outer = (f.scopes.get? i).map Scope.outer
  scope : ∀ x : ScopeId, x.index < f.scopes.size → ¬ S x →
    f'.scopes.get? x.index = f.scopes.get? x.index
  current : ∀ e : EnvId, e.index < f.handles.size → ¬ E e → f'.current e = f.current e

namespace Alters

variable {f f' f'' : Forest α} {S S' : ScopeId → Prop} {E E' : EnvId → Prop}

/-- No scope changes. -/
theorem of_scopes (hg : f.Grows f') (hs : ∀ i < f.scopes.size, f'.scopes.get? i = f.scopes.get? i)
    (hc : ∀ e : EnvId, e.index < f.handles.size → ¬ E e → f'.current e = f.current e) :
    f.Alters S E f' where
  toGrows := hg
  outer i hi := by rw [hs i hi]
  scope x hx _ := hs x.index hx
  current := hc

theorem refl (f : Forest α) : f.Alters S E f :=
  of_scopes (.refl f) (fun _ _ => rfl) fun _ _ _ => rfl

/-- What changes afterwards may be new. -/
theorem trans (h : f.Alters S E f') (h' : f'.Alters S' E' f'')
    (hS : ∀ x : ScopeId, x.index < f.scopes.size → S' x → S x)
    (hE : ∀ e : EnvId, e.index < f.handles.size → E' e → E e) : f.Alters S E f'' where
  toGrows := h.toGrows.trans h'.toGrows
  outer i hi := (h'.outer i (hi.trans_le h.scopes)).trans (h.outer i hi)
  scope x hx hn := by
    rw [h'.scope x (hx.trans_le h.scopes) fun hx' => hn (hS x hx hx')]
    exact h.scope x hx hn
  current e he hn := by
    rw [h'.current e (he.trans_le h.handles) fun he' => hn (hE e he he')]
    exact h.current e he hn

/-- A change to a new environment. -/
theorem next (h : f.Alters S E f')
    (h' : f'.Alters (⟨f.scopes.size⟩ = ·) (⟨f.handles.size⟩ = ·) f'') : f.Alters S E f'' := by
  refine h.trans h' ?_ ?_
  · rintro x hx rfl
    exact absurd hx (Nat.lt_irrefl _)
  · rintro e he rfl
    exact absurd he (Nat.lt_irrefl _)

/-- The bindings of a scope change. -/
theorem modifyBindings (f : Forest α) {x : ScopeId} (g : Bindings α → Bindings α) (hS : S x) :
    f.Alters S E { f with
      scopes := f.scopes.modify x.index fun scope => { scope with bindings := g scope.bindings } }
    where
  handles := le_rfl
  scopes := (Table.size_modify _ _ _).ge
  outer i _ := by
    simp only [Table.get?_modify]
    split
    · cases f.scopes.get? i <;> rfl
    · rfl
  scope y _ hn := by
    have hne : x.index ≠ y.index := by
      intro heq
      have hxy : x = y := congrArg ScopeId.mk heq
      exact hn (hxy ▸ hS)
    simp only [Table.get?_modify, if_neg hne]
  current _ _ _ := rfl

theorem define (f : Forest α) {e : EnvId} (name : Name) (a : α) (hS : S (f.current e)) :
    f.Alters S E (f.define e name a) := modifyBindings f (·.insert name a) hS

theorem adopt (f : Forest α) {e : EnvId} (b : Bindings α) (hS : S (f.current e)) :
    f.Alters S E (f.adopt e b) := modifyBindings f (·.merge b) hS

theorem addEnv (f : Forest α) (scope : Scope α) : f.Alters S E (f.addEnv scope).1 := by
  refine of_scopes (.addEnv f scope) (fun i hi => ?_) fun e he _ => Table.get_push_of_lt _ he
  show (f.scopes.push scope).get? i = _
  rw [Table.get?_push, if_neg hi.ne]

theorem moveTo (f : Forest α) {e : EnvId} (s : ScopeId) (hE : E e) :
    f.Alters S E (f.moveTo e s) :=
  of_scopes (.moveTo f e s) (fun _ _ => rfl) fun _ _ hn =>
    current_moveTo_of_ne f s fun heq => hn (heq ▸ hE)

theorem enter (f : Forest α) {e : EnvId} (hE : E e) : f.Alters S E (f.enter e) := by
  refine of_scopes (.enter f e) (fun i hi => ?_) fun _ _ hn =>
    current_moveTo_of_ne _ _ fun heq => hn (heq ▸ hE)
  show (f.scopes.push _).get? i = _
  rw [Table.get?_push, if_neg hi.ne]

end Alters

/-- A region is closed, and `P` holds of all bindings in it. -/
structure Encloses (f : Forest α) (r : Region) (P : Name → α → Prop) : Prop where
  envs_lt : ∀ e ∈ r.envs, e.index < f.handles.size
  scopes_lt : ∀ s ∈ r.scopes, s.index < f.scopes.size
  handles : f.handles.All fun i s => s.index < f.scopes.size ∧ (s ∈ r.scopes ↔ ⟨i⟩ ∈ r.envs)
  closed : f.scopes.All fun i scope => ⟨i⟩ ∈ r.scopes → ∀ s, scope.outer = some s → s ∈ r.scopes
  bindings : f.scopes.All fun i scope => ⟨i⟩ ∈ r.scopes →
    ∀ name a, scope.bindings.get? name = some a → P name a

namespace Encloses

variable {f : Forest α} {r : Region} {P Q : Name → α → Prop}

theorem empty : (Forest.empty : Forest α).Encloses {} P where
  envs_lt _ he := by cases he
  scopes_lt _ hs := by cases hs
  handles := Table.All.empty
  closed := Table.All.empty
  bindings := Table.All.empty

theorem imp (h : f.Encloses r P) (hPQ : ∀ name a, P name a → Q name a) : f.Encloses r Q :=
  { h with bindings := h.bindings.imp fun _ _ hb hs name a ha => hPQ name a (hb hs name a ha) }

/-- The empty region is closed. -/
theorem clear (h : f.Encloses r P) : f.Encloses {} Q where
  envs_lt _ he := by cases he
  scopes_lt _ hs := by cases hs
  handles := h.handles.imp fun _ _ hs => ⟨hs.1, by simp⟩
  closed _ _ _ hs := by cases hs
  bindings _ _ _ hs := by cases hs

theorem current_mem_iff (h : f.Encloses r P) {e : EnvId} (he : e.index < f.handles.size) :
    f.current e ∈ r.scopes ↔ e ∈ r.envs := (h.handles.get he).2

/-! ## What names mean in a region -/

/-- The chain of a scope of the region stays in it. -/
theorem chain (h : f.Encloses r P) {s : ScopeId} (hs : s ∈ r.scopes) :
    ∀ scope ∈ f.chain s, ∀ name a, scope.bindings.get? name = some a → P name a := by
  fun_induction f.chain s with
  | case1 s hg => simp
  | case2 s scope hg ho =>
    intro other hother
    rw [List.mem_singleton.1 hother]
    exact h.bindings _ _ hg hs
  | case3 s scope hg outer ho hlt ih =>
    intro other hother
    rcases List.mem_cons.1 hother with rfl | hother
    · exact h.bindings _ _ hg hs
    · exact ih (h.closed _ _ hg hs outer ho) other hother
  | case4 s scope hg outer ho hlt =>
    intro other hother
    rw [List.mem_singleton.1 hother]
    exact h.bindings _ _ hg hs

/-- **What a name means in a region is bound in the region.** -/
theorem lookup (h : f.Encloses r P) {e : EnvId} (he : e ∈ r.envs) {name : Name} {a : α}
    (ha : f.lookup e name = some a) : P name a := by
  obtain ⟨scope, hscope, ha⟩ := List.exists_of_findSome?_eq_some ha
  exact h.chain ((h.current_mem_iff (h.envs_lt e he)).2 he) scope hscope name a ha

/-! ## New scopes and environments -/

theorem new_scope_notMem (h : f.Encloses r P) : (⟨f.scopes.size⟩ : ScopeId) ∉ r.scopes :=
  fun hs => Nat.lt_irrefl _ (h.scopes_lt _ hs)

theorem new_env_notMem (h : f.Encloses r P) : (⟨f.handles.size⟩ : EnvId) ∉ r.envs :=
  fun he => Nat.lt_irrefl _ (h.envs_lt _ he)

theorem addScope_outside (h : f.Encloses r P) (scope : Scope α) :
    (f.addScope scope).1.Encloses r P where
  envs_lt := h.envs_lt
  scopes_lt s hs := by
    exact (h.scopes_lt s hs).trans (Table.size_lt_size_push _ _)
  handles := h.handles.imp fun _ s hs => by
    refine ⟨?_, hs.2⟩
    exact hs.1.trans (Table.size_lt_size_push _ _)
  closed := h.closed.push fun hs => absurd hs h.new_scope_notMem
  bindings := h.bindings.push fun hs => absurd hs h.new_scope_notMem

/-- A scope that is there already is not the new one. -/
theorem mem_addScope_iff {s : ScopeId} (hs : s.index < f.scopes.size) :
    s ∈ (r.addScope ⟨f.scopes.size⟩).scopes ↔ s ∈ r.scopes := by
  have hne : s ≠ ⟨f.scopes.size⟩ := by
    rintro rfl
    exact Nat.lt_irrefl _ hs
  exact List.mem_cons.trans (or_iff_right hne)

/-- An environment that is there already is not the new one. -/
theorem mem_addEnv_iff {e : EnvId} (he : e.index < f.handles.size) :
    e ∈ (r.addEnv ⟨f.handles.size⟩).envs ↔ e ∈ r.envs := by
  have hne : e ≠ ⟨f.handles.size⟩ := by
    rintro rfl
    exact Nat.lt_irrefl _ he
  exact List.mem_cons.trans (or_iff_right hne)

theorem addScope_inside (h : f.Encloses r P) {scope : Scope α}
    (ho : ∀ s, scope.outer = some s → s ∈ r.scopes)
    (hb : ∀ name a, scope.bindings.get? name = some a → P name a) :
    (f.addScope scope).1.Encloses (r.addScope ⟨f.scopes.size⟩) P where
  envs_lt := h.envs_lt
  scopes_lt s hs := by
    rcases List.mem_cons.1 hs with rfl | hs
    · exact Table.size_lt_size_push _ _
    · exact (h.addScope_outside scope).scopes_lt s hs
  handles := by
    intro i s hg
    obtain ⟨hlt, hiff⟩ := (h.addScope_outside scope).handles i s hg
    exact ⟨hlt, (mem_addScope_iff (h.handles i s hg).1).trans hiff⟩
  closed := by
    refine Table.All.push (h.closed.imp_of_lt fun i other hi hc hs s hso => ?_) fun _ s hs => ?_
    · exact List.mem_cons_of_mem _ (hc ((mem_addScope_iff hi).1 hs) s hso)
    · exact List.mem_cons_of_mem _ (ho s hs)
  bindings := by
    refine Table.All.push (h.bindings.imp_of_lt fun i other hi hc hs => ?_) fun _ => hb
    exact hc ((mem_addScope_iff hi).1 hs)

/-- A new environment on a scope outside the region. -/
theorem addEnv_outside (h : f.Encloses r P) (scope : Scope α) : (f.addEnv scope).1.Encloses r P := by
  have hs := h.addScope_outside scope
  refine { hs with
    envs_lt := fun e he => ?_
    handles := hs.handles.push ⟨?_, ?_⟩ }
  · exact (h.envs_lt e he).trans (Table.size_lt_size_push _ _)
  · exact Table.size_lt_size_push _ _
  · exact iff_of_false h.new_scope_notMem h.new_env_notMem

/-- A new environment in the region. -/
theorem addEnv_inside (h : f.Encloses r P) {b : Bindings α}
    (hb : ∀ name a, b.get? name = some a → P name a) :
    (f.addEnv ⟨b, none⟩).1.Encloses ((r.addScope ⟨f.scopes.size⟩).addEnv ⟨f.handles.size⟩) P := by
  have hs : (f.addScope ⟨b, none⟩).1.Encloses _ P := h.addScope_inside (fun s hs => by cases hs) hb
  refine { hs with
    envs_lt := fun e he => ?_
    handles := Table.All.push (hs.handles.imp_of_lt fun i s hi hh => ?_) ⟨?_, ?_⟩ }
  · rcases List.mem_cons.1 he with rfl | he
    · exact Table.size_lt_size_push _ _
    · exact (h.envs_lt e he).trans (Table.size_lt_size_push _ _)
  · have henv := mem_addEnv_iff (f := f) (r := r.addScope ⟨f.scopes.size⟩) (e := ⟨i⟩) hi
    exact ⟨hh.1, hh.2.trans henv.symm⟩
  · exact hs.scopes_lt _ (List.mem_cons_self ..)
  · exact iff_of_true (List.mem_cons_self ..) (List.mem_cons_self ..)

/-! ## Changes -/

/-- The handle of an environment moves within the region, or outside it. -/
theorem moveTo (h : f.Encloses r P) {e : EnvId} {s : ScopeId} (hlt : s.index < f.scopes.size)
    (hiff : s ∈ r.scopes ↔ e ∈ r.envs) : (f.moveTo e s).Encloses r P where
  envs_lt e' he := by
    show e'.index < (f.handles.set e.index s).size
    rw [Table.size_set]
    exact h.envs_lt e' he
  scopes_lt := h.scopes_lt
  handles := h.handles.set ⟨hlt, hiff⟩
  closed := h.closed
  bindings := h.bindings

/-- The bindings of the innermost scope of an environment change. -/
theorem modifyBindings (h : f.Encloses r P) {e : EnvId} (he : e.index < f.handles.size)
    {g : Bindings α → Bindings α}
    (hg : e ∈ r.envs → ∀ b : Bindings α, (∀ name a, b.get? name = some a → P name a) →
      ∀ name a, (g b).get? name = some a → P name a) :
    Encloses { f with scopes := f.scopes.modify (f.current e).index fun scope =>
      { scope with bindings := g scope.bindings } } r P where
  envs_lt := h.envs_lt
  scopes_lt s hs := by
    show s.index < (f.scopes.modify _ _).size
    rw [Table.size_modify]
    exact h.scopes_lt s hs
  handles := h.handles.imp fun _ s hs => by
    refine ⟨?_, hs.2⟩
    show s.index < (f.scopes.modify _ _).size
    rw [Table.size_modify]
    exact hs.1
  closed := h.closed.modify fun _ _ hc => hc
  bindings := h.bindings.modify fun scope _ hb hs =>
    hg ((h.current_mem_iff he).1 hs) scope.bindings (hb hs)

theorem define (h : f.Encloses r P) {e : EnvId} (he : e.index < f.handles.size) (name : Name) {a : α}
    (ha : e ∈ r.envs → P name a) : (f.define e name a).Encloses r P := by
  refine h.modifyBindings (g := (·.insert name a)) he fun hin b hb other a' h' => ?_
  rw [Bindings.get?_insert] at h'
  split at h'
  · rename_i heq
    cases h'
    exact heq ▸ ha hin
  · exact hb other a' h'

theorem adopt (h : f.Encloses r P) {e : EnvId} (he : e.index < f.handles.size) {c : Bindings α}
    (hc : e ∈ r.envs → ∀ name a, c.get? name = some a → P name a) :
    (f.adopt e c).Encloses r P := by
  refine h.modifyBindings (g := (·.merge c)) he fun hin b hb name a ha => ?_
  rw [Bindings.get?_merge] at ha
  rcases Option.or_eq_some_iff.1 ha with ha | ⟨_, ha⟩
  · exact hc hin name a ha
  · exact hb name a ha

/-- An environment outside the region enters a scope. -/
theorem enter_outside (h : f.Encloses r P) {e : EnvId} (he : e ∉ r.envs) :
    (f.enter e).Encloses r P := by
  refine (h.addScope_outside ⟨.empty, some (f.current e)⟩).moveTo ?_ ?_
  · exact Table.size_lt_size_push _ _
  · exact iff_of_false h.new_scope_notMem he

/-- An environment of the region enters a scope. -/
theorem enter_inside (h : f.Encloses r P) {e : EnvId} (he : e ∈ r.envs) :
    (f.enter e).Encloses (r.addScope ⟨f.scopes.size⟩) P := by
  have hcurrent := (h.current_mem_iff (h.envs_lt e he)).2 he
  have hin : (f.addScope ⟨.empty, some (f.current e)⟩).1.Encloses _ P :=
    h.addScope_inside (fun s hs => by cases hs; exact hcurrent) fun name a ha => by cases ha
  refine hin.moveTo (hin.scopes_lt _ (List.mem_cons_self ..)) ?_
  exact iff_of_true (List.mem_cons_self ..) he

end Encloses

end Forest

end Catena
