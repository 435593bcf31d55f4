import CodeGraph.Proofs.Scope.History
import Mathlib.Data.List.Nodup
import Mathlib.Data.List.Perm.Subperm

/-!
# The way out of a scope

`scopeChain` and `findVariable` go from a scope to the scope around it, and on from there. Said without a
bound, such a walk is a relation between its start and its answer: `ChainFrom` for the scopes it meets and
`Search` for the variable it finds. A walk that comes to no end has no answer. A walk that ends meets no scope
twice, so the bounds of the table are wide enough for it, and the table gives the answers of the relations
wherever there are any.
-/

namespace CodeGraph.ScopeTable

/-- The scopes on the way out of a scope, innermost first. The last one lies in no other. -/
inductive ChainFrom (t : ScopeTable) : Scope → List Scope → Prop where
  | last {scope : Scope} (h : t.parent? scope = none) : ChainFrom t scope [scope]
  | outward {scope outer : Scope} {rest : List Scope} (h : t.parent? scope = some outer)
      (hrest : ChainFrom t outer rest) : ChainFrom t scope (scope :: rest)

/-- What the search for a variable that starts in a scope comes back with. -/
inductive Search (t : ScopeTable) (name : String) : Scope → Option NodeId → Prop where
  | hit {scope : Scope} {id : NodeId} (h : t.lookupLocal scope name = some id) :
      Search t name scope (some id)
  | miss {scope : Scope} (h : t.lookupLocal scope name = none) (hparent : t.parent? scope = none) :
      Search t name scope none
  | outward {scope outer : Scope} {found : Option NodeId} (h : t.lookupLocal scope name = none)
      (hparent : t.parent? scope = some outer) (hrest : Search t name outer found) :
      Search t name scope found

/-- The way out of a scope ends in the global scope. -/
def ReachesGlobal (t : ScopeTable) (scope : Scope) : Prop :=
  ∃ chain, t.ChainFrom scope chain ∧ chain.getLast? = some .global

variable {t : ScopeTable} {scope outer : Scope} {chain : List Scope}

/-! ### Chains -/

theorem ChainFrom.unique (h : t.ChainFrom scope chain) {other : List Scope}
    (h' : t.ChainFrom scope other) : chain = other := by
  induction h generalizing other with
  | last hnone =>
    cases h' with
    | last => rfl
    | outward hsome => rw [hnone] at hsome; cases hsome
  | outward hsome hrest ih =>
    cases h' with
    | last hnone => rw [hsome] at hnone; cases hnone
    | outward hsome' hrest' =>
      obtain rfl := Option.some.inj (hsome.symm.trans hsome')
      rw [ih hrest']

/-- A chain is the start of nothing but itself: each scope on it has the rest of it as its own chain. -/
theorem ChainFrom.of_mem (h : t.ChainFrom scope chain) {inner : Scope} (hmem : inner ∈ chain) :
    ∃ rest, t.ChainFrom inner rest ∧ rest <:+ chain := by
  induction h with
  | last hnone =>
    obtain rfl := List.mem_singleton.mp hmem
    exact ⟨_, .last hnone, List.suffix_refl _⟩
  | outward hsome hrest ih =>
    rcases List.mem_cons.mp hmem with rfl | hmem
    · exact ⟨_, .outward hsome hrest, List.suffix_refl _⟩
    · obtain ⟨rest, hchain, hsuffix⟩ := ih hmem
      exact ⟨rest, hchain, hsuffix.trans (List.suffix_cons _ _)⟩

/-- A way out that ends meets no scope twice. -/
theorem ChainFrom.nodup (h : t.ChainFrom scope chain) : chain.Nodup := by
  induction h with
  | last => exact List.nodup_singleton _
  | @outward scope outer rest hsome hrest ih =>
    refine List.nodup_cons.mpr ⟨fun hmem => ?_, ih⟩
    obtain ⟨again, hagain, hsuffix⟩ := hrest.of_mem hmem
    -- the chain of the scope would be shorter than itself
    have hlen := hsuffix.length_le
    rw [← (ChainFrom.outward hsome hrest).unique hagain, List.length_cons] at hlen
    omega

theorem mem_entries_of_parent? {id : NodeId} (h : t.parent? (.node id) = some outer) :
    (id, outer) ∈ t.parents.entries := Writes.mem_of_newest? h

/-- All scopes of a chain but the last were entered. -/
theorem ChainFrom.exists_entered (h : t.ChainFrom scope chain) :
    ∃ ids last, chain = ids.map Scope.node ++ [last] ∧ ids ⊆ t.parents.entries.map (·.1) := by
  induction h with
  | @last scope hnone => exact ⟨[], scope, rfl, List.nil_subset _⟩
  | @outward scope outer rest hsome hrest ih =>
    obtain ⟨ids, last, rfl, hsub⟩ := ih
    cases scope with
    | global => cases hsome
    | node id =>
      have hid : id ∈ t.parents.entries.map (·.1) :=
        List.mem_map_of_mem (mem_entries_of_parent? hsome)
      exact ⟨id :: ids, last, rfl, List.cons_subset.mpr ⟨hid, hsub⟩⟩

/-- The bound of the table is wide enough for every way out that ends. -/
theorem ChainFrom.length_le (h : t.ChainFrom scope chain) : chain.length ≤ t.wayOut + 1 := by
  obtain ⟨ids, last, heq, hsub⟩ := h.exists_entered
  have hnodup : (ids.map Scope.node).Nodup :=
    h.nodup.sublist (heq ▸ List.sublist_append_left _ _)
  have hle := ((hnodup.of_map _).subperm hsub).length_le
  rw [List.length_map] at hle
  rw [heq, List.length_append, List.length_map, List.length_singleton, wayOut]
  omega

theorem ChainFrom.length_pos (h : t.ChainFrom scope chain) : 0 < chain.length := by
  cases h <;> exact Nat.succ_pos _

theorem ChainFrom.chainWithin_eq (h : t.ChainFrom scope chain) {fuel : Nat}
    (hfuel : chain.length ≤ fuel + 1) : t.chainWithin fuel scope = chain := by
  induction h generalizing fuel with
  | last hnone =>
    cases fuel with
    | zero => rfl
    | succ fuel => rw [chainWithin, hnone]
  | outward hsome hrest ih =>
    rw [List.length_cons] at hfuel
    have hpos := hrest.length_pos
    obtain ⟨fuel, rfl⟩ := Nat.exists_eq_succ_of_ne_zero (show fuel ≠ 0 by omega)
    rw [chainWithin, hsome]
    exact congrArg _ (ih (by omega))

/-- The table lists a way out that ends. -/
theorem ChainFrom.scopeChain_eq (h : t.ChainFrom scope chain) : t.scopeChain scope = chain :=
  h.chainWithin_eq h.length_le

theorem chainFrom_chainWithin {last : Scope} (hlast : t.parent? last = none) :
    ∀ (fuel : Nat) (scope : Scope), (t.chainWithin fuel scope).getLast? = some last →
      t.ChainFrom scope (t.chainWithin fuel scope)
  | 0, scope, h => by
    obtain rfl := Option.some.inj h
    exact .last hlast
  | fuel + 1, scope, h => by
    rw [chainWithin] at h ⊢
    cases hparent : t.parent? scope with
    | none => exact .last hparent
    | some outer =>
      rw [hparent, List.getLast?_cons] at h
      refine .outward hparent (chainFrom_chainWithin hlast fuel outer ?_)
      cases hchain : (t.chainWithin fuel outer).getLast? with
      | none =>
        rw [List.getLast?_eq_none_iff] at hchain
        cases fuel <;> cases hchain
      | some final => rwa [hchain] at h

/-! ### The global scope -/

theorem reachesGlobal_global (t : ScopeTable) : t.ReachesGlobal .global :=
  ⟨[.global], .last rfl, rfl⟩

theorem ReachesGlobal.of_parent? (h : t.parent? scope = some outer) (houter : t.ReachesGlobal outer) :
    t.ReachesGlobal scope := by
  obtain ⟨chain, hchain, hlast⟩ := houter
  refine ⟨scope :: chain, .outward h hchain, ?_⟩
  rw [List.getLast?_cons, hlast]
  rfl

theorem ReachesGlobal.chainFrom_scopeChain (h : t.ReachesGlobal scope) :
    t.ChainFrom scope (t.scopeChain scope) := by
  obtain ⟨chain, hchain, -⟩ := h
  rwa [hchain.scopeChain_eq]

/-- Whether the way out of a scope ends in the global scope is seen from the scopes that the table lists. -/
theorem reachesGlobal_iff :
    t.ReachesGlobal scope ↔ (t.scopeChain scope).getLast? = some .global := by
  constructor
  · rintro ⟨chain, hchain, hlast⟩
    rwa [hchain.scopeChain_eq]
  · intro h
    exact ⟨_, chainFrom_chainWithin rfl _ _ h, h⟩

instance (t : ScopeTable) (scope : Scope) : Decidable (t.ReachesGlobal scope) :=
  decidable_of_iff _ reachesGlobal_iff.symm

/-! ### Searches -/

theorem Search.unique {name : String} {found other : Option NodeId} (h : t.Search name scope found)
    (h' : t.Search name scope other) : found = other := by
  induction h with
  | hit hid =>
    cases h' with
    | hit hid' => exact hid.symm.trans hid'
    | miss hnone => rw [hid] at hnone; cases hnone
    | outward hnone => rw [hid] at hnone; cases hnone
  | miss hnone hparent =>
    cases h' with
    | hit hid => rw [hnone] at hid; cases hid
    | miss => rfl
    | outward _ hparent' => rw [hparent] at hparent'; cases hparent'
  | outward hnone hparent _ ih =>
    cases h' with
    | hit hid => rw [hnone] at hid; cases hid
    | miss _ hparent' => rw [hparent] at hparent'; cases hparent'
    | outward _ hparent' hrest' =>
      obtain rfl := Option.some.inj (hparent.symm.trans hparent')
      exact ih hrest'

/-- Where the way out ends, so does every search, and the bounded one has its answer. -/
theorem ChainFrom.search_findWithin (h : t.ChainFrom scope chain) (name : String) {fuel : Nat}
    (hfuel : chain.length ≤ fuel + 1) : t.Search name scope (t.findWithin name fuel scope) := by
  induction h generalizing fuel with
  | @last scope hnone =>
    cases hlocal : t.lookupLocal scope name with
    | none =>
      have hfind : t.findWithin name fuel scope = none := by
        cases fuel <;> simp [findWithin, hlocal, hnone]
      exact hfind ▸ .miss hlocal hnone
    | some id =>
      have hfind : t.findWithin name fuel scope = some id := by
        cases fuel <;> simp [findWithin, hlocal]
      exact hfind ▸ .hit hlocal
  | @outward scope outer rest hsome hrest ih =>
    rw [List.length_cons] at hfuel
    have hpos := hrest.length_pos
    obtain ⟨fuel, rfl⟩ := Nat.exists_eq_succ_of_ne_zero (show fuel ≠ 0 by omega)
    cases hlocal : t.lookupLocal scope name with
    | none =>
      rw [findWithin, hlocal, hsome]
      exact .outward hlocal hsome (ih (by omega))
    | some id =>
      rw [findWithin, hlocal]
      exact .hit hlocal

theorem ReachesGlobal.search_findVariable (h : t.ReachesGlobal scope) (name : String) :
    t.Search name scope (t.findVariable name scope) := by
  obtain ⟨chain, hchain, -⟩ := h
  exact hchain.search_findWithin name hchain.length_le

/-! ### Scopes that lie in themselves -/

theorem not_chainFrom_of_parent?_self (h : t.parent? scope = some scope) (chain : List Scope) :
    ¬ t.ChainFrom scope chain := by
  intro hchain
  have hnodup := (ChainFrom.outward h hchain).nodup
  have hmem : scope ∈ chain := by cases hchain <;> exact List.mem_cons_self
  exact (List.nodup_cons.mp hnodup).1 hmem

theorem not_search_of_parent?_self {name : String} (h : t.parent? scope = some scope)
    (hlocal : t.lookupLocal scope name = none) (found : Option NodeId) :
    ¬ t.Search name scope found := by
  intro hsearch
  induction hsearch with
  | hit hid => rw [hlocal] at hid; cases hid
  | miss _ hparent => rw [h] at hparent; cases hparent
  | outward _ hparent _ ih =>
    obtain rfl := Option.some.inj (h.symm.trans hparent)
    exact ih h hlocal

end CodeGraph.ScopeTable
