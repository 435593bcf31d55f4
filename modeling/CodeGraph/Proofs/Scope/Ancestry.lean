import CodeGraph.Proofs.Scope.Nesting

/-!
# The table has the nesting of the tree

The definition pass hands the current scope down the tree and writes into the table, for every scope, the one around it.
Of the tree the table keeps no more than that, and what it tells of a scope it reads back from there. Where no two nodes
that open scopes share a name, nothing is lost: the table knows the scopes of the tree and no others, each lies in the
scope of the nearest node above that opens one, and the way out goes through all of them. The reference pass hands down
scopes of its own, and at every node it has the one of the definition pass. Main statement: `scopes_resolve_nest`.
-/

namespace CodeGraph

/-- The keys of a table in which none is written twice. -/
theorem Writes.keysOf_eq_map {κ ν : Type} [DecidableEq κ] {xs : List (κ × ν)} (hnd : (xs.map (·.1)).Nodup) :
    keysOf xs = xs.map (·.1) := by
  induction xs with
  | nil => rfl
  | cons x xs ih =>
    obtain ⟨k, v⟩ := x
    obtain ⟨hnew, hnd⟩ := List.nodup_cons.mp hnd
    rw [keysOf, ih hnd, if_neg hnew]
    rfl

namespace ScopingRules

variable {rules : ScopingRules} {root : Node}

/-- The scope that the nearest of some nodes opens, or the global scope where none of them opens one. -/
def nearest (rules : ScopingRules) (path : List Node) : Scope :=
  match path.find? rules.opensScope with
  | some n => .node n.id
  | none => .global

theorem innermost_eq_nearest (path : List Node) : rules.innermost path = rules.nearest path := by
  induction path with
  | nil => rfl
  | cons n path ih =>
    by_cases hn : rules.opensScope n = true
    · rw [innermost_cons_of_opens hn, nearest, List.find?_cons_of_pos hn]
    · rw [innermost_cons_of_not_opens hn, ih, nearest, nearest, List.find?_cons_of_neg hn]

/-! ### The scopes of the table -/

/-- The scopes of a tree are entered in pre-order, and the table has the newest first. -/
theorem map_fst_parents_tableOf (root : Node) :
    (rules.tableOf root).parents.entries.map (·.1) = (rules.scopeIds root).reverse := by
  have hnames : (rules.enteredIn root.places).map (·.1) = rules.scopeIds root := by
    rw [enteredIn, map_fst_filterMap_enteredAt, Node.map_node_places, scopeIds]
  rw [parents_tableOf, List.map_reverse, hnames]

theorem scopeCount_tableOf (hnd : (rules.scopeIds root).Nodup) :
    (rules.tableOf root).scopeCount = (rules.scopeIds root).length := by
  have hkeys : ((rules.tableOf root).parents.entries.map (·.1)).Nodup := by
    rw [map_fst_parents_tableOf]
    exact List.nodup_reverse.mpr hnd
  rw [ScopeTable.scopeCount, Writes.size, Writes.keysOf_eq_map hkeys, map_fst_parents_tableOf, List.length_reverse]

theorem isSome_parent?_tableOf_iff (hnd : (rules.scopeIds root).Nodup) (id : NodeId) :
    ((rules.tableOf root).parent? (.node id)).isSome ↔ id ∈ rules.scopeIds root := by
  constructor
  · intro hsome
    obtain ⟨outer, houter⟩ := Option.isSome_iff_exists.mp hsome
    have hmem := List.mem_map_of_mem (f := (·.1)) (ScopeTable.mem_entries_of_parent? houter)
    rw [map_fst_parents_tableOf, List.mem_reverse] at hmem
    exact hmem
  · intro hmem
    obtain ⟨n, hn, rfl⟩ := List.mem_map.mp hmem
    obtain ⟨hwalk, hopens⟩ := List.mem_filter.mp hn
    obtain ⟨above, hp⟩ := Node.mem_walk_iff.mp hwalk
    rw [parent?_tableOf hnd hp hopens]
    rfl

/-- A table has the scopes of a tree nested as the nodes that open them: it knows these scopes and no others, and the
scope of a node lies in that of the nearest node above that opens one. From there the way out goes on through the scopes
of all nodes above, each once, and ends in the global scope; the table lists all of it. -/
structure Nests (rules : ScopingRules) (root : Node) (t : ScopeTable) : Prop where
  known : ∀ id, (t.parent? (.node id)).isSome ↔ ∃ n ∈ root.walk, rules.opensScope n = true ∧ n.id = id
  count : t.scopeCount = root.walk.countP rules.opensScope
  parent : ∀ p ∈ root.places, rules.opensScope p.node = true →
    t.parent? (.node p.node.id) = some (rules.nearest p.above)
  chain : ∀ p ∈ root.places, rules.opensScope p.node = true →
    t.scopeChain (.node p.node.id) =
      .node p.node.id :: (p.above.filter rules.opensScope).map (fun n => Scope.node n.id) ++ [.global]
  ends : ∀ p ∈ root.places, rules.opensScope p.node = true →
    t.ChainFrom (.node p.node.id) (t.scopeChain (.node p.node.id))
  nodup : ∀ p ∈ root.places, rules.opensScope p.node = true → (t.scopeChain (.node p.node.id)).Nodup

theorem nests_tableOf (hnd : (rules.scopeIds root).Nodup) : rules.Nests root (rules.tableOf root) := by
  have hchain : ∀ p ∈ root.places, rules.opensScope p.node = true →
      (rules.tableOf root).ChainFrom (.node p.node.id) (.node p.node.id :: rules.scopesOn p.above) := by
    intro p hp hopens
    have hway := chainFrom_tableOf hnd hp
    rwa [Place.path, innermost_cons_of_opens hopens, scopesOn_cons_of_opens hopens] at hway
  refine ⟨fun id => ?_, ?_, fun p hp hopens => ?_, fun p hp hopens => ?_, fun p hp hopens => ?_,
    fun p hp hopens => ?_⟩
  · rw [isSome_parent?_tableOf_iff hnd, scopeIds, List.mem_map]
    simp only [List.mem_filter, and_assoc]
  · rw [scopeCount_tableOf hnd, scopeIds, List.length_map, List.countP_eq_length_filter]
  · rw [parent?_tableOf hnd hp hopens, innermost_eq_nearest]
  · rw [(hchain p hp hopens).scopeChain_eq, scopesOn]
    rfl
  · rw [(hchain p hp hopens).scopeChain_eq]
    exact hchain p hp hopens
  · rw [(hchain p hp hopens).scopeChain_eq]
    exact (hchain p hp hopens).nodup

/-! ### The scopes of the passes -/

/-- Both passes of resolution are in the same scope at every node: that of the nearest node on the way down that opens
one. The definition pass lets a scope lie in the one around its node and files definitions under the one inside, and in
that one the reference pass looks up what the node uses. -/
structure SharesScopes (rules : ScopingRules) (root : Node) : Prop where
  definitions : (rules.resolve root).scopes = ScopeTable.ofSteps (root.tour.flatMap fun
    | .enter p =>
      (if rules.opensScope p.node then [.enterScope p.node.id (some (rules.nearest p.above))] else []) ++
        ((rules.definition p.node).map (bindingSteps p.node.id (rules.nearest p.path))).getD [] ++
        (if rules.isControlFlow p.node.kind then [.enterControlFlow p.node.id] else [])
    | .leave p => rules.exitSteps p.node)
  references : (rules.resolve root).edges =
    rules.controlEdges root ++ root.places.flatMap fun p =>
      rules.ownLinks (rules.resolve root).scopes p.parent? (rules.nearest p.path) p.node

theorem sharesScopes (hsem : rules.isSemantic = true) (root : Node) : rules.SharesScopes root where
  definitions := by
    rw [rules.scopes_resolve hsem, tableOf, declare_eq_tour]
    congr 2
    funext x
    cases x with
    | enter p =>
      rw [crossingSteps, given_scopeIn, entrySteps, ← innermost_cons, innermost_eq_nearest, innermost_eq_nearest]
      rfl
    | leave p => rfl
  references := by
    rw [rules.scopes_resolve hsem, rules.edges_resolve hsem]
    congr 2
    funext p
    rw [linksAt, innermost_eq_nearest]

/-- **The table has the nesting of the tree.** Under semantic rules, and where no two nodes of a tree that open scopes
share a name, the scopes of the table that resolution returns are nested as these nodes, and both passes have gone
through the tree in the same scopes. -/
theorem scopes_resolve_nest (hsem : rules.isSemantic = true) (hnd : (rules.scopeIds root).Nodup) :
    rules.Nests root (rules.resolve root).scopes ∧ rules.SharesScopes root := by
  refine ⟨?_, sharesScopes hsem root⟩
  rw [rules.scopes_resolve hsem]
  exact nests_tableOf hnd

open Node (token around)

/-- A class with two methods; the second has a loop, in an `if` that opens no scope. -/
def loopInMethod : Node :=
  around "module" 0 90
    [around "class_definition" 0 90
      [token "identifier" 6 "C",
        around "function_definition" 10 30 [token "identifier" 14 "f"],
        around "function_definition" 40 90
          [token "identifier" 44 "g",
            around "if_statement" 50 90 [around "for_statement" 60 90 [token "identifier" 64 "x"]]]]]

theorem scopes_resolve_nest_loopInMethod :
    let table := (Python.rules.resolve loopInMethod).scopes
    Python.rules.isSemantic = true ∧ (Python.rules.scopeIds loopInMethod).Nodup ∧ table.scopeCount = 4 ∧
      table.parent? (.node ⟨"for_statement_60_90"⟩) = some (.node ⟨"function_definition_40_90"⟩) ∧
      table.scopeChain (.node ⟨"for_statement_60_90"⟩) =
        [.node ⟨"for_statement_60_90"⟩, .node ⟨"function_definition_40_90"⟩,
          .node ⟨"class_definition_0_90"⟩, .global] := by
  intro table
  have hsem : Python.rules.isSemantic = true := rfl
  have hnd : (Python.rules.scopeIds loopInMethod).Nodup := by decide
  obtain ⟨hnests, -⟩ := scopes_resolve_nest hsem hnd
  have hloop : loopInMethod.places[8] ∈ loopInMethod.places := List.getElem_mem _
  refine ⟨hsem, hnd, hnests.count, hnests.parent _ hloop (by decide), hnests.chain _ hloop (by decide)⟩

end ScopingRules

end CodeGraph
