import Catena.Proofs.Store.Regions
import Catena.World.Basic

/-!
# Environments as a forest

Handles on environments are shared, scopes are shared between environments, and a guard may move an
environment back long after it has gone elsewhere. Whatever is done with them, the scopes remain a
forest: each lies in one that is older (`Forest.Rooted`), so that the way outwards from a scope ends
(`Rooted.exists_walk`), and the scope around a scope is never another one.

Names are looked up along that way. A definition changes what its name means where the scope that it
is written to is met before any other scope with the name (`Forest.Exposed`), and nowhere else
(`Rooted.lookup_define`). `Holdings` is what users of environments have in hands, and `Operation`
what they can do; `environments_form_forest` is about all that can come of it.
-/

namespace Catena

namespace Forest

variable {α : Type} {f : Forest α}

/-! ## The way outwards -/

/-- The scopes from `s` outwards, up to one that lies in no other. -/
inductive Walk (f : Forest α) : ScopeId → List ScopeId → Prop
  | outermost {s : ScopeId} {scope : Scope α} (hs : f.scopes.get? s.index = some scope)
      (ho : scope.outer = none) : Walk f s [s]
  | outwards {s outer : ScopeId} {scope : Scope α} {path : List ScopeId}
      (hs : f.scopes.get? s.index = some scope) (ho : scope.outer = some outer)
      (hp : Walk f outer path) : Walk f s (s :: path)

/-- What a scope itself binds `name` to. -/
def binding (f : Forest α) (s : ScopeId) (name : Name) : Option α :=
  (f.scopes.get s.index).bindings.get? name

/-- From an environment, `s` is met before any other scope that binds `name`. -/
def Exposed (f : Forest α) (e : EnvId) (name : Name) (s : ScopeId) : Prop :=
  ∃ near far, f.Walk (f.current e) (near ++ s :: far) ∧ ∀ x ∈ near, f.binding x name = none

/-- Every scope lies in an older one, if in any, and every environment stands on a scope. -/
structure Rooted (f : Forest α) : Prop where
  outer : f.scopes.All fun i scope => ∀ o, scope.outer = some o → o.index < i
  handles : f.handles.All fun _ s => s.index < f.scopes.size

/-- Walks see which scope is around which, and nothing else. -/
theorem Walk.congr {f' : Forest α} {s : ScopeId} {path : List ScopeId} (h : f.Walk s path)
    (ho : ∀ i, (f'.scopes.get? i).map Scope.outer = (f.scopes.get? i).map Scope.outer) :
    f'.Walk s path := by
  induction h with
  | @outermost s scope hs hout =>
    obtain ⟨scope', hs', hout'⟩ := Option.map_eq_some_iff.1 ((ho s.index).trans (by rw [hs]; rfl))
    exact .outermost hs' (hout'.trans hout)
  | @outwards s outer scope path hs hout _ ih =>
    obtain ⟨scope', hs', hout'⟩ := Option.map_eq_some_iff.1 ((ho s.index).trans (by rw [hs]; rfl))
    exact .outwards hs' (hout'.trans hout) ih

/-- From a scope there is one way outwards. -/
theorem Walk.unique {s : ScopeId} {path path' : List ScopeId} (h : f.Walk s path)
    (h' : f.Walk s path') : path = path' := by
  induction h generalizing path' with
  | outermost hs ho =>
    cases h' with
    | outermost => rfl
    | outwards hs' ho' =>
      cases hs.symm.trans hs'
      cases ho.symm.trans ho'
  | outwards hs ho _ ih =>
    cases h' with
    | outermost hs' ho' =>
      cases hs.symm.trans hs'
      cases ho.symm.trans ho'
    | outwards hs' ho' hp' =>
      cases hs.symm.trans hs'
      cases ho.symm.trans ho'
      rw [ih hp']

namespace Rooted

theorem empty : (Forest.empty : Forest α).Rooted := ⟨Table.All.empty, Table.All.empty⟩

theorem current_lt (h : f.Rooted) {e : EnvId} (he : e.index < f.handles.size) :
    (f.current e).index < f.scopes.size := h.handles.get he

/-- The way outwards ends, and the chain of a scope goes all of it. -/
theorem exists_walk (h : f.Rooted) {s : ScopeId} (hs : s.index < f.scopes.size) :
    ∃ path, f.Walk s path ∧ f.chain s = path.map fun x => f.scopes.get x.index := by
  obtain ⟨i⟩ := s
  -- the scopes on the way are ever older
  induction i using Nat.strongRecOn with
  | ind i ih =>
    have hscope := Table.get?_of_lt hs
    cases ho : (f.scopes.get i).outer with
    | none => exact ⟨[⟨i⟩], .outermost hscope ho, chain_of_outermost hscope ho⟩
    | some o =>
      have hlt : o.index < i := h.outer i _ hscope o ho
      obtain ⟨path, hpath, hchain⟩ := ih o.index hlt (hlt.trans hs)
      refine ⟨⟨i⟩ :: path, .outwards hscope ho hpath, ?_⟩
      rw [chain_of_outer hscope ho, if_pos hlt, hchain]
      rfl

/-- Names are looked up, and scopes counted, on the way outwards. -/
theorem lookup_eq (h : f.Rooted) {e : EnvId} (he : e.index < f.handles.size) :
    ∃ path, f.Walk (f.current e) path ∧ f.depth e = path.length ∧
      ∀ name, f.lookup e name = path.findSome? (f.binding · name) := by
  obtain ⟨path, hpath, hchain⟩ := h.exists_walk (h.current_lt he)
  refine ⟨path, hpath, by rw [depth, hchain, List.length_map], fun name => ?_⟩
  rw [lookup, hchain, List.findSome?_map]
  rfl

/-! ## Changes -/

theorem addEnv (h : f.Rooted) {scope : Scope α}
    (ho : ∀ o, scope.outer = some o → o.index < f.scopes.size) : (f.addEnv scope).1.Rooted where
  outer := h.outer.push ho
  handles := by
    refine Table.All.push (h.handles.imp fun _ s hs => ?_) ?_
    · exact hs.trans (Table.size_lt_size_push _ _)
    · exact Table.size_lt_size_push _ _

theorem moveTo (h : f.Rooted) (e : EnvId) {s : ScopeId} (hs : s.index < f.scopes.size) :
    (f.moveTo e s).Rooted := ⟨h.outer, h.handles.set hs⟩

theorem enter (h : f.Rooted) {e : EnvId} (he : e.index < f.handles.size) : (f.enter e).Rooted := by
  have hadd : (f.addScope ⟨.empty, some (f.current e)⟩).1.Rooted := by
    refine ⟨h.outer.push fun o ho => ?_, h.handles.imp fun _ s hs => ?_⟩
    · cases ho
      exact h.current_lt he
    · exact hs.trans (Table.size_lt_size_push _ _)
  exact hadd.moveTo e (Table.size_lt_size_push _ _)

/-- Leaving goes back to the scope around. -/
theorem leave? (h : f.Rooted) {e : EnvId} (he : e.index < f.handles.size) {f' : Forest α}
    (hf : f.leave? e = some f') : ∃ o : ScopeId, o.index < f.scopes.size ∧ f' = f.moveTo e o := by
  obtain ⟨o, ho, rfl⟩ := Option.map_eq_some_iff.1 hf
  have hcurrent := h.current_lt he
  exact ⟨o, (h.outer _ _ (Table.get?_of_lt hcurrent) o ho).trans hcurrent, rfl⟩

theorem modifyBindings (h : f.Rooted) (s : ScopeId) (g : Bindings α → Bindings α) :
    Rooted { f with
      scopes := f.scopes.modify s.index fun scope => { scope with bindings := g scope.bindings } }
    where
  outer := h.outer.modify fun _ _ ho => ho
  handles := h.handles.imp fun _ x hx => by
    show x.index < (f.scopes.modify _ _).size
    rwa [Table.size_modify]

theorem define (h : f.Rooted) (e : EnvId) (name : Name) (a : α) : (f.define e name a).Rooted :=
  h.modifyBindings (f.current e) (·.insert name a)

/-! ## What a definition changes -/

/-- What the scopes bind after a definition. -/
theorem binding_define (h : f.Rooted) {e : EnvId} (he : e.index < f.handles.size) (name : Name)
    (a : α) (s : ScopeId) (other : Name) :
    (f.define e name a).binding s other =
      if s = f.current e ∧ other = name then some a else f.binding s other := by
  unfold binding Forest.define
  by_cases hs : s = f.current e
  · subst hs
    rw [Table.get_modify_self _ (h.current_lt he)]
    simp [Bindings.get?_insert]
  · have hne : (f.current e).index ≠ s.index := fun heq => hs (congrArg ScopeId.mk heq.symm)
    rw [Table.get_modify_of_ne _ _ hne, if_neg fun hcon => hs hcon.1]

/-- The scope of a definition, if it is met first, decides; if not, it makes no difference. -/
theorem findSome?_define (h : f.Rooted) {e : EnvId} (he : e.index < f.handles.size) (name : Name)
    (a : α) (path : List ScopeId) :
    (∃ near far, path = near ++ f.current e :: far ∧ ∀ x ∈ near, f.binding x name = none) ∧
        path.findSome? ((f.define e name a).binding · name) = some a ∨
      (¬ ∃ near far, path = near ++ f.current e :: far ∧ ∀ x ∈ near, f.binding x name = none) ∧
        path.findSome? ((f.define e name a).binding · name) =
          path.findSome? (f.binding · name) := by
  induction path with
  | nil => exact .inr ⟨by simp, rfl⟩
  | cons x path ih =>
    have hx := h.binding_define he name a x name
    by_cases hcur : x = f.current e
    · rw [if_pos ⟨hcur, rfl⟩] at hx
      exact .inl ⟨⟨[], path, by rw [hcur]; rfl, by simp⟩, by simp [hx]⟩
    rw [if_neg fun hcon => hcur hcon.1] at hx
    have hnear : (∃ near far, x :: path = near ++ f.current e :: far ∧
        ∀ y ∈ near, f.binding y name = none) ↔ f.binding x name = none ∧
          ∃ near far, path = near ++ f.current e :: far ∧ ∀ y ∈ near, f.binding y name = none := by
      constructor
      · rintro ⟨near, far, hpath, hnone⟩
        cases near with
        | nil => exact absurd (List.cons.inj hpath).1 hcur
        | cons y near =>
          obtain ⟨rfl, htail⟩ := List.cons.inj hpath
          exact ⟨hnone _ (List.mem_cons_self ..), near, far, htail,
            fun z hz => hnone z (List.mem_cons_of_mem _ hz)⟩
      · rintro ⟨hnone, near, far, rfl, hall⟩
        exact ⟨x :: near, far, rfl, List.forall_mem_cons.2 ⟨hnone, hall⟩⟩
    rw [hnear, List.findSome?_cons, List.findSome?_cons, hx]
    cases hbind : f.binding x name with
    | some b => exact .inr ⟨by simp, rfl⟩
    | none => simpa using ih

/-- **What a definition changes.** Its name means its value where its scope is met first; where it is
not, and for all other names, everything is as before. -/
theorem lookup_define (h : f.Rooted) {e e' : EnvId} (he : e.index < f.handles.size)
    (he' : e'.index < f.handles.size) (name : Name) (a : α) (other : Name) :
    (other = name → f.Exposed e' name (f.current e) →
        (f.define e name a).lookup e' other = some a) ∧
      (¬ (other = name ∧ f.Exposed e' name (f.current e)) →
        (f.define e name a).lookup e' other = f.lookup e' other) := by
  obtain ⟨path, hpath, -, hlookup⟩ := h.lookup_eq he'
  have hexposed : f.Exposed e' name (f.current e) ↔
      ∃ near far, path = near ++ f.current e :: far ∧ ∀ x ∈ near, f.binding x name = none := by
    constructor
    · rintro ⟨near, far, hwalk, hnone⟩
      exact ⟨near, far, hpath.unique hwalk, hnone⟩
    · rintro ⟨near, far, rfl, hnone⟩
      exact ⟨near, far, hpath, hnone⟩
  obtain ⟨path', hpath', -, hlookup'⟩ := (h.define e name a).lookup_eq (e := e') he'
  have houter (i : Nat) : ((f.define e name a).scopes.get? i).map Scope.outer =
      (f.scopes.get? i).map Scope.outer := by
    by_cases hi : i < f.scopes.size
    · exact (Alters.define f name a (S := fun _ => True) (E := fun _ => True) trivial).outer i hi
    · have hsize := size_scopes_define f e name a
      rw [(Table.get?_eq_none_iff _ _).2 (by omega), (Table.get?_eq_none_iff _ _).2 (by omega)]
  have hsame : path' = path := hpath'.unique (hpath.congr houter)
  have hafter (name' : Name) : (f.define e name a).lookup e' name' =
      path.findSome? ((f.define e name a).binding · name') := hsame ▸ hlookup' name'
  rw [hafter, hlookup]
  by_cases hother : other = name
  · subst hother
    rcases h.findSome?_define he other a path with ⟨hex, hfound⟩ | ⟨hex, hfound⟩
    · exact ⟨fun _ _ => hfound, fun hn => absurd ⟨rfl, hexposed.2 hex⟩ hn⟩
    · exact ⟨fun _ hx => absurd (hexposed.1 hx) hex, fun _ => hfound⟩
  · refine ⟨fun heq => absurd heq hother, fun _ => ?_⟩
    have hbinding (s : ScopeId) : (f.define e name a).binding s other = f.binding s other := by
      rw [h.binding_define he, if_neg fun hcon => hother hcon.2]
    simp only [hbinding]

end Rooted

end Forest

/-! ## Users of environments -/

/-- What users of environments have in hands: handles, several of which may be on the same
environment, and guards, which are gone once they have been used. -/
structure Holdings where
  world : World := {}
  handles : List EnvId := []
  guards : List (Option Guard) := []

/-- What users do with environments. Handles and guards are told by their place in the holdings. -/
inductive Operation where
  | root
  /-- Another handle on the same environment. -/
  | clone (handle : Nat)
  | child (handle : Nat)
  | seeded (bindings : Bindings Value)
  | define (handle : Nat) (name : Name) (v : Value)
  | adopt (handle : Nat) (bindings : Bindings Value)
  | enter (handle : Nat)
  | leave (handle : Nat)
  | enterScope (handle : Nat)
  /-- Leaves through a guard, or drops it, which is the same. -/
  | close (guard : Nat)

namespace Holdings

/-- All environments there are. -/
abbrev forest (h : Holdings) : Forest Value := h.world.forest

/-- A new environment comes with a handle. -/
def gain (h : Holdings) (added : Forest Value × EnvId) : Holdings :=
  { h with
    world := { h.world with forest := added.1 }
    handles := h.handles ++ [added.2] }

/-- The holdings after an operation; there is none on a handle or guard that nobody has. -/
def perform (h : Holdings) : Operation → Option Holdings
  | .root => some (h.gain h.forest.root)
  | .clone i => do
    let e ← h.handles[i]?
    return { h with handles := h.handles ++ [e] }
  | .child i => do
    let e ← h.handles[i]?
    return h.gain (h.forest.child e)
  | .seeded bindings => some (h.gain (h.forest.seeded bindings))
  | .define i name v => do
    let e ← h.handles[i]?
    return { h with world := h.world.define e name v }
  | .adopt i bindings => do
    let e ← h.handles[i]?
    return { h with world := h.world.mapForest (·.adopt e bindings) }
  | .enter i => do
    let e ← h.handles[i]?
    return { h with world := h.world.mapForest (·.enter e) }
  | .leave i => do
    let e ← h.handles[i]?
    return { h with world := h.world.leave e }
  | .enterScope i => do
    let e ← h.handles[i]?
    let (world, guard) := h.world.enterScope e
    return { h with world, guards := h.guards ++ [some guard] }
  | .close i => do
    let guard ← (h.guards[i]?).join
    return { h with world := h.world.restore guard, guards := h.guards.set i none }

/-- The holdings after some operations. -/
def performAll (h : Holdings) (operations : List Operation) : Option Holdings :=
  operations.foldlM perform h

/-- The environments are a forest in which all handles and guards have their place. -/
structure InPlace (h : Holdings) : Prop where
  rooted : h.forest.Rooted
  handles : ∀ e ∈ h.handles, e.index < h.forest.handles.size
  guards : ∀ g, some g ∈ h.guards →
    g.env.index < h.forest.handles.size ∧ g.saved.index < h.forest.scopes.size

namespace InPlace

variable {h next : Holdings}

theorem none : InPlace {} := ⟨.empty, by simp, by simp⟩

/-- An operation that adds neither handles nor guards. -/
theorem change (hp : h.InPlace) {w : World} (hr : w.forest.Rooted)
    (hg : h.forest.Grows w.forest) : InPlace { h with world := w } where
  rooted := hr
  handles e he := (hp.handles e he).trans_le hg.handles
  guards g h' := ⟨(hp.guards g h').1.trans_le hg.handles, (hp.guards g h').2.trans_le hg.scopes⟩

theorem gain (hp : h.InPlace) {scope : Scope Value}
    (ho : ∀ o, scope.outer = some o → o.index < h.forest.scopes.size) :
    (h.gain (h.forest.addEnv scope)).InPlace := by
  have hworld := hp.change (w := { h.world with forest := (h.forest.addEnv scope).1 })
    (hp.rooted.addEnv ho) (.addEnv h.forest scope)
  refine { hworld with handles := fun e he => ?_ }
  rcases List.mem_append.1 he with he | he
  · exact hworld.handles e he
  · cases List.mem_singleton.1 he
    exact Table.size_lt_size_push _ _

/-- What an operation does to the environments, and what it leaves of them. -/
theorem perform (hp : h.InPlace) {operation : Operation} (hop : h.perform operation = some next) :
    next.InPlace ∧ h.forest.Alters (fun _ => True) (fun _ => True) next.forest := by
  have hlt {i : Nat} {e : EnvId} (hi : h.handles[i]? = some e) : e.index < h.forest.handles.size :=
    hp.handles e (List.mem_of_getElem? hi)
  cases operation with
  | root =>
    cases hop
    exact ⟨hp.gain fun o ho => (by cases ho), .addEnv ..⟩
  | seeded bindings =>
    cases hop
    exact ⟨hp.gain fun o ho => (by cases ho), .addEnv ..⟩
  | clone i =>
    obtain ⟨e, he, hop⟩ := Option.bind_eq_some_iff.1 hop
    cases hop
    refine ⟨{ hp with handles := fun e' he' => ?_ }, .refl _⟩
    rcases List.mem_append.1 he' with he' | he'
    · exact hp.handles e' he'
    · cases List.mem_singleton.1 he'
      exact hlt he
  | child i =>
    obtain ⟨e, he, hop⟩ := Option.bind_eq_some_iff.1 hop
    cases hop
    exact ⟨hp.gain fun o ho => by cases ho; exact hp.rooted.current_lt (hlt he), .addEnv ..⟩
  | define i name v =>
    obtain ⟨e, he, hop⟩ := Option.bind_eq_some_iff.1 hop
    cases hop
    have halters := Forest.Alters.define h.forest (e := e) name v
      (S := fun _ => True) (E := fun _ => True) trivial
    exact ⟨hp.change (hp.rooted.define e name v) halters.toGrows, halters⟩
  | adopt i bindings =>
    obtain ⟨e, he, hop⟩ := Option.bind_eq_some_iff.1 hop
    cases hop
    have halters := Forest.Alters.adopt h.forest (e := e) bindings
      (S := fun _ => True) (E := fun _ => True) trivial
    exact ⟨hp.change (hp.rooted.modifyBindings _ (·.merge bindings)) halters.toGrows, halters⟩
  | enter i =>
    obtain ⟨e, he, hop⟩ := Option.bind_eq_some_iff.1 hop
    cases hop
    exact ⟨hp.change (hp.rooted.enter (hlt he)) (.enter _ e), .enter _ trivial⟩
  | leave i =>
    obtain ⟨e, he, hop⟩ := Option.bind_eq_some_iff.1 hop
    cases hop
    cases hleave : h.forest.leave? e with
    | none =>
      simp only [World.leave, hleave]
      exact ⟨hp.change hp.rooted (.refl _), .refl _⟩
    | some f =>
      obtain ⟨o, ho, rfl⟩ := hp.rooted.leave? (hlt he) hleave
      simp only [World.leave, hleave]
      exact ⟨hp.change (hp.rooted.moveTo e ho) (.moveTo _ e o), .moveTo _ o trivial⟩
  | enterScope i =>
    obtain ⟨e, he, hop⟩ := Option.bind_eq_some_iff.1 hop
    cases hop
    have hworld := hp.change (w := (h.world.enterScope e).1) (hp.rooted.enter (hlt he))
      (.enter _ e)
    refine ⟨{ hworld with guards := fun g hg => ?_ }, .enter _ trivial⟩
    rcases List.mem_append.1 hg with hg | hg
    · exact hworld.guards g hg
    -- the new guard leads back to where the environment is
    · cases List.mem_singleton.1 hg
      have hgrows := Forest.Grows.enter h.forest e
      exact ⟨(hlt he).trans_le hgrows.handles,
        (hp.rooted.current_lt (hlt he)).trans_le hgrows.scopes⟩
  | close i =>
    obtain ⟨guard, hguard, hop⟩ := Option.bind_eq_some_iff.1 hop
    cases hop
    have hmem : some guard ∈ h.guards := List.mem_of_getElem? (Option.join_eq_some_iff.1 hguard)
    have hworld := hp.change (w := h.world.restore guard)
      (hp.rooted.moveTo guard.env (hp.guards guard hmem).2) (.moveTo _ guard.env guard.saved)
    refine ⟨{ hworld with guards := fun g hg => ?_ }, .moveTo _ guard.saved trivial⟩
    rcases List.mem_or_eq_of_mem_set hg with hg | hg
    · exact hworld.guards g hg
    · cases hg

/-- What a sequence of operations does to the environments, and what it leaves of them. -/
theorem performAll (hp : h.InPlace) {operations : List Operation}
    (hops : h.performAll operations = some next) :
    next.InPlace ∧ h.forest.Alters (fun _ => True) (fun _ => True) next.forest := by
  induction operations generalizing h with
  | nil =>
    cases hops
    exact ⟨hp, .refl _⟩
  | cons operation operations ih =>
    obtain ⟨between, hfirst, hrest⟩ := Option.bind_eq_some_iff.1 hops
    obtain ⟨hbetween, halters⟩ := hp.perform hfirst
    obtain ⟨hnext, halters'⟩ := ih hbetween hrest
    exact ⟨hnext, halters.trans halters' (fun _ _ _ => trivial) fun _ _ _ => trivial⟩

end InPlace

/-- **Environments are a forest.** Whatever is done with them, in whatever order:

* the way outwards from every environment ends, and names are looked up on it;
* the scope around a scope stays the same whatever is done later;
* leaving the outermost scope of an environment is only reported;
* a definition makes its name mean its value wherever its scope is met before any other scope that
  binds the name, and changes no other meaning. -/
theorem environments_form_forest {operations later : List Operation} {h next : Holdings}
    (hops : performAll {} operations = some h) (hlater : h.performAll later = some next) :
    (∀ e ∈ h.handles, ∃ path, h.forest.Walk (h.forest.current e) path ∧
        h.forest.depth e = path.length ∧
        ∀ name, h.world.lookup e name = path.findSome? (h.forest.binding · name)) ∧
      (∀ (s : ScopeId) (scope : Scope Value), h.forest.scopes.get? s.index = some scope →
        ∃ scope', next.forest.scopes.get? s.index = some scope' ∧ scope'.outer = scope.outer) ∧
      (∀ (i : Nat) (e : EnvId), h.handles[i]? = some e →
        h.forest.Walk (h.forest.current e) [h.forest.current e] →
        h.perform (.leave i) =
          some { h with world := h.world.report "leave: no scope to leave at the root frame" }) ∧
      ∀ e ∈ h.handles, ∀ e' ∈ h.handles, ∀ (name : Name) (v : Value) (other : Name),
        (other = name → h.forest.Exposed e' name (h.forest.current e) →
            (h.world.define e name v).lookup e' other = some v) ∧
          (¬ (other = name ∧ h.forest.Exposed e' name (h.forest.current e)) →
            (h.world.define e name v).lookup e' other = h.world.lookup e' other) := by
  have hp := (InPlace.none.performAll hops).1
  refine ⟨fun e he => hp.rooted.lookup_eq (hp.handles e he), fun s scope hs => ?_,
    fun i e hi hwalk => ?_, fun e he e' he' name v other => ?_⟩
  · have houter := (hp.performAll hlater).2.outer s.index (Table.lt_of_get? hs)
    rw [hs] at houter
    exact Option.map_eq_some_iff.1 houter
  · have hnone : h.forest.leave? e = Option.none := by
      cases hwalk with
      | outermost hs ho => rw [Forest.leave?, Table.get_eq_of_get? hs, ho]; rfl
      | outwards _ _ hp => cases hp
    have hleave : h.world.leave e =
        h.world.report "leave: no scope to leave at the root frame" := by
      simp only [World.leave, hnone]
    rw [perform, hi, ← hleave]
    rfl
  · exact hp.rooted.lookup_define (hp.handles e he) (hp.handles e' he') name v other

/-- Two handles on one environment, and an environment inside the scope that it has entered: both
guard and handles are used later, and a definition in the scope is seen from inside. -/
theorem environments_form_forest_shared :
    ∃ h next,
      performAll {} [.root, .clone 0, .enterScope 1, .child 0, .define 0 "x" .nil] = some h ∧
        h.performAll [.close 0, .leave 1] = some next ∧
        (h.world.define ⟨0⟩ "x" (.datum (.bool true))).lookup ⟨1⟩ "x" =
          some (.datum (.bool true)) := by
  refine ⟨_, _, rfl, rfl, ?_⟩
  have hall := @environments_form_forest
    [.root, .clone 0, .enterScope 1, .child 0, .define 0 "x" .nil] [.close 0, .leave 1] _ _ rfl rfl
  refine (hall.2.2.2 ⟨0⟩ (.head _) ⟨1⟩ (.tail _ (.tail _ (.head _))) "x" _ "x").1 rfl ?_
  refine ⟨[⟨2⟩], [⟨0⟩], .outwards rfl rfl (.outwards rfl rfl (.outermost rfl rfl)), ?_⟩
  intro s hs
  cases List.mem_singleton.1 hs
  rfl

end Holdings

end Catena
