import CodeGraph.Proofs.Graph.Edges

/-!
# No edge is there twice

In a tree whose nodes have names of their own, an edge beyond containment is told by its origin: the node it leaves
and its kind. A place emits no two edges of one origin. Nor do two places: a use emits from itself, a call from one
of its children, and the name of a node tells its place and so the place above it. Main statement: `build_noneTwice`.
-/

namespace CodeGraph

/-- What is meant by the edges of a graph of a tree being there once: as a whole, by their origins where they are no
`contains` edges, and by the nodes that are contained. -/
structure SemanticGraph.NoneTwice (root : Node) (graph : SemanticGraph) : Prop where
  nodup : graph.edges.Nodup
  leaving : ∀ (id : NodeId) (kind : EdgeKind), kind ≠ .contains →
    ((graph.edgesFrom id).filter (·.kind = kind)).length ≤ 1
  containing : ∀ n ∈ root.walk, n.id ≠ root.id →
    ((graph.edgesTo n.id).filter (·.kind = .contains)).length = 1
  outermost : (graph.edgesTo root.id).filter (·.kind = .contains) = []

namespace ScopingRules

variable {rules : ScopingRules} {root : Node} {table : ScopeTable}

/-! ### What one place emits -/

theorem nodup_origins_callEdges (table : ScopeTable) (callee : Node) :
    ((table.callEdges callee).map Edge.origin).Nodup := by
  rw [ScopeTable.callEdges]
  cases table.findFunction callee.text <;> cases table.findImport callee.text <;> simp [Edge.origin]

theorem nodup_origins_referenceEdges (table : ScopeTable) (scope : Scope) (n : Node) :
    ((table.referenceEdges scope n).map Edge.origin).Nodup := by
  rw [ScopeTable.referenceEdges]
  split
  · exact List.nodup_nil
  split
  · exact List.nodup_nil
  · exact List.nodup_singleton _

theorem nodup_origins_linksAt (rules : ScopingRules) (table : ScopeTable) (p : Place) :
    ((rules.linksAt table p).map Edge.origin).Nodup := by
  rw [linksAt, ownLinks]
  split
  · split
    · exact List.nodup_nil
    · exact nodup_origins_callEdges table _
  split
  · split
    · exact List.nodup_nil
    · exact nodup_origins_referenceEdges table _ p.node
  · exact List.nodup_nil

/-! ### What two places emit -/

/-- The callee of a call has its place right below the call, so its name tells the place of the call. -/
theorem place_eq_of_callee (hrules : rules ∈ builtIn) (hids : (root.walk.map Node.id).Nodup)
    {p q : Place} (hp : p ∈ root.places) (hq : q ∈ root.places) {callee callee' : Node}
    (hcallee : rules.callee p.node = some callee) (hcallee' : rules.callee q.node = some callee')
    (h : callee.id = callee'.id) : p = q := by
  have hbelow := Node.mem_places_child hp (mem_children_of_callee hrules hcallee)
  have hbelow' := Node.mem_places_child hq (mem_children_of_callee hrules hcallee')
  obtain ⟨-, habove⟩ := Place.mk.inj (place_eq_of_id_eq hids hbelow hbelow' h)
  obtain ⟨hnode, habove⟩ := List.cons_eq_cons.mp habove
  exact congrArg₂ Place.mk hnode habove

/-- Places that emit edges of one origin are the same. -/
theorem place_eq_of_origin_eq (hrules : rules ∈ builtIn) (hids : (root.walk.map Node.id).Nodup)
    {p q : Place} (hp : p ∈ root.places) (hq : q ∈ root.places) {e e' : Edge}
    (he : e ∈ rules.linksAt table p) (he' : e' ∈ rules.linksAt table q)
    (h : e.origin = e'.origin) : p = q := by
  -- a use and a call emit edges of different kinds
  rcases origin_of_mem_ownLinks he with ho | ⟨callee, hcallee, ho⟩ <;>
    rcases origin_of_mem_ownLinks he' with ho' | ⟨callee', hcallee', ho'⟩
  · rw [ho, ho'] at h
    exact place_eq_of_id_eq hids hp hq (Prod.mk.inj h).1
  · rcases ho' with ho' | ho' <;> rw [ho, ho'] at h <;> cases (Prod.mk.inj h).2
  · rcases ho with ho | ho <;> rw [ho, ho'] at h <;> cases (Prod.mk.inj h).2
  · refine place_eq_of_callee hrules hids hp hq hcallee hcallee' ?_
    rcases ho with ho | ho <;> rcases ho' with ho' | ho' <;> rw [ho, ho'] at h <;>
      exact (Prod.mk.inj h).1

theorem nodup_origins_links (hrules : rules ∈ builtIn) (hids : (root.walk.map Node.id).Nodup)
    (table : ScopeTable) :
    ((root.places.flatMap (rules.linksAt table)).map Edge.origin).Nodup := by
  have hplaces : root.places.Nodup := by
    rw [← Node.map_node_places] at hids
    exact hids.of_map.of_map
  rw [List.map_flatMap, List.nodup_flatMap]
  refine ⟨fun p _ => nodup_origins_linksAt rules table p,
    hplaces.pairwise_of_forall_ne fun p hp q hq hne o ho ho' => hne ?_⟩
  obtain ⟨e, he, rfl⟩ := List.mem_map.mp ho
  obtain ⟨e', he', heq⟩ := List.mem_map.mp ho'
  exact place_eq_of_origin_eq hrules hids hp hq he he' heq.symm

/-! ### What resolution finds -/

theorem nodup_origins_controlEdges (rules : ScopingRules) (hids : (root.walk.map Node.id).Nodup) :
    ((rules.controlEdges root).map Edge.origin).Nodup := by
  have hsources : (((rules.controlEdges root).map Edge.origin).map Prod.fst).Nodup := by
    rw [List.map_map]
    show ((rules.controlEdges root).map (·.source)).Nodup
    rw [map_source_controlEdges]
    exact hids.sublist (List.filter_sublist.map Node.id)
  exact hsources.of_map

/-- Resolution finds no two edges of one origin. -/
theorem nodup_origins_resolve (hrules : rules ∈ builtIn) (hids : (root.walk.map Node.id).Nodup) :
    ((rules.resolve root).edges.map Edge.origin).Nodup := by
  cases hsem : rules.isSemantic with
  | false =>
    rw [resolve, hsem]
    exact List.nodup_nil
  | true =>
    rw [rules.edges_resolve hsem, List.map_append, List.nodup_append]
    refine ⟨nodup_origins_controlEdges rules hids, nodup_origins_links hrules hids _, ?_⟩
    rintro o ho _ ho' rfl
    obtain ⟨e, he, rfl⟩ := List.mem_map.mp ho
    obtain ⟨e', he', heq⟩ := List.mem_map.mp ho'
    obtain ⟨p, -, he'⟩ := List.mem_flatMap.mp he'
    have hkind : e'.kind = .controlFlow :=
      (Prod.mk.inj heq).2.trans (rules.kind_of_mem_controlEdges he)
    rcases byName_of_mem_ownLinks he' with h | h | h <;> rw [hkind] at h <;> cases h

theorem kind_ne_contains_of_mem_resolve {e : Edge} (he : e ∈ (rules.resolve root).edges) :
    e.kind ≠ .contains := by
  intro hkind
  rcases rules.mem_edges_resolve he with he | ⟨p, -, he⟩
  · cases hkind.symm.trans (rules.kind_of_mem_controlEdges he)
  · rcases byName_of_mem_ownLinks he with h | h | h <;> cases hkind.symm.trans h

end ScopingRules

/-! ### The edges of the graph -/

namespace Node

variable {root : Node}

theorem nodup_targets_containment (hids : (root.walk.map Node.id).Nodup) :
    (root.containment.map (·.target)).Nodup := by
  rw [map_target_containment]
  exact hids.sublist ((List.tail_sublist _).map Node.id)

theorem exists_containment_to {n : Node} (hn : n ∈ root.walk) (hne : n.id ≠ root.id) :
    ∃ e ∈ root.containment, e.target = n.id := by
  rw [walk_eq] at hn
  have hbelow : n.id ∈ root.containment.map (·.target) := by
    rw [map_target_containment, walk_eq]
    rcases List.mem_cons.mp hn with rfl | hn
    · exact absurd rfl hne
    · exact List.mem_map_of_mem hn
  exact List.mem_map.mp hbelow

theorem target_ne_of_mem_containment (hids : (root.walk.map Node.id).Nodup) {e : Edge}
    (he : e ∈ root.containment) : e.target ≠ root.id := by
  intro htarget
  have hmem : e.target ∈ root.containment.map (·.target) := List.mem_map_of_mem he
  rw [map_target_containment, walk_eq, htarget] at hmem
  rw [walk_eq, List.map_cons, List.nodup_cons] at hids
  exact hids.1 hmem

end Node

theorem length_filter_le_one {α β : Type} [DecidableEq β] {f : α → β} {l : List α}
    (h : (l.map f).Nodup) (b : β) : (l.filter (f · = b)).length ≤ 1 := by
  have hcount := List.nodup_iff_count_le_one.mp h b
  have hfilter : (fun a => decide (f a = b)) = (fun c => c == b) ∘ f := by
    funext a
    exact Bool.eq_iff_iff.mpr (by simp)
  rwa [List.count, List.countP_map, ← hfilter, List.countP_eq_length_filter] at hcount

namespace SemanticGraph

variable {root : Node} {language : Language} {rules : ScopingRules}

theorem filter_kind_edgesFrom_build {kind : EdgeKind} (hkind : kind ≠ .contains) (id : NodeId) :
    ((build root language rules).edgesFrom id).filter (·.kind = kind) =
      (rules.resolve root).edges.filter (·.origin = (id, kind)) := by
  have hcontained : root.containment.filter
      (fun e => decide (e.kind = kind) && decide (e.source = id)) = [] :=
    List.filter_eq_nil_iff.mpr fun e he => by simp [Node.kind_of_mem_containment he, hkind.symm]
  show ((root.containment ++ (rules.resolve root).edges).filter _).filter _ = _
  rw [List.filter_filter, List.filter_append, hcontained, List.nil_append]
  exact List.filter_congr fun e _ => by simp [Edge.origin, and_comm]

theorem filter_contains_edgesTo_build (id : NodeId) :
    ((build root language rules).edgesTo id).filter (·.kind = .contains) =
      root.containment.filter (·.target = id) := by
  have hfound : (rules.resolve root).edges.filter
      (fun e => decide (e.kind = .contains) && decide (e.target = id)) = [] :=
    List.filter_eq_nil_iff.mpr fun e he => by
      simp [ScopingRules.kind_ne_contains_of_mem_resolve he]
  show ((root.containment ++ (rules.resolve root).edges).filter _).filter _ = _
  rw [List.filter_filter, List.filter_append, hfound, List.append_nil]
  exact List.filter_congr fun e he => by simp [Node.kind_of_mem_containment he]

end SemanticGraph

namespace ScopingRules

variable {rules : ScopingRules} {root : Node}

theorem nodup_edges_build (hrules : rules ∈ builtIn) (hids : (root.walk.map Node.id).Nodup)
    (language : Language) : (SemanticGraph.build root language rules).edges.Nodup := by
  have hcontained := Node.nodup_targets_containment hids
  refine List.nodup_append.mpr
    ⟨hcontained.of_map, (nodup_origins_resolve hrules hids).of_map, ?_⟩
  rintro e he _ he' rfl
  exact kind_ne_contains_of_mem_resolve he' (Node.kind_of_mem_containment he)

/-- **No edge is there twice.** In the graph of a tree whose nodes have names of their own, at most one edge of each
kind leaves a node, `contains` apart; and one `contains` edge leads to each node but the root, and none to the root. -/
theorem build_noneTwice (hrules : rules ∈ builtIn) (hids : (root.walk.map Node.id).Nodup)
    (language : Language) : (SemanticGraph.build root language rules).NoneTwice root := by
  refine ⟨nodup_edges_build hrules hids language, fun id kind hkind => ?_, fun n hn hne => ?_, ?_⟩
  · rw [SemanticGraph.filter_kind_edgesFrom_build hkind]
    exact length_filter_le_one (nodup_origins_resolve hrules hids) (id, kind)
  · rw [SemanticGraph.filter_contains_edgesTo_build]
    refine Nat.le_antisymm (length_filter_le_one (Node.nodup_targets_containment hids) n.id) ?_
    obtain ⟨e, he, htarget⟩ := Node.exists_containment_to hn hne
    exact List.length_pos_of_mem (List.mem_filter.mpr ⟨he, decide_eq_true htarget⟩)
  · rw [SemanticGraph.filter_contains_edgesTo_build]
    refine List.filter_eq_nil_iff.mpr fun e he htarget => ?_
    exact Node.target_ne_of_mem_containment hids he (of_decide_eq_true htarget)

/-- The edges of all kinds of one tree, none of them twice. -/
theorem build_noneTwice_allKinds :
    Python.rules ∈ builtIn ∧ (edgesOfAllKinds.walk.map Node.id).Nodup ∧
      (SemanticGraph.build edgesOfAllKinds .python Python.rules).NoneTwice edgesOfAllKinds := by
  have hrules : Python.rules ∈ builtIn := List.mem_cons_self
  have hids : (edgesOfAllKinds.walk.map Node.id).Nodup := by decide
  exact ⟨hrules, hids, build_noneTwice hrules hids .python⟩

end ScopingRules

end CodeGraph
